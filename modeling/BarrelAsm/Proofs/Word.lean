import BarrelAsm.Pseudo

/-! The fields of an instruction word are what it was made of, and a word is made of its fields. The
words of a pseudo-instruction are those of native instructions. -/
namespace BarrelAsm.Word

section Immediate

variable (opcode target : UInt8) (value : UInt16)

theorem toNat_makeImmediate : (makeImmediate opcode target value).bits.toNat =
    (opcode.toNat * 256 + target.toNat) * 65536 + value.toNat := by
  have ho := opcode.toNat_lt
  have ht := target.toNat_lt
  have hv := value.toNat_lt
  rw [makeImmediate, UInt32.toNat_ofNat']
  exact Nat.mod_eq_of_lt (by omega)

@[simp] theorem immediate_makeImmediate :
    (makeImmediate opcode target value).immediate = value := by
  have hv := value.toNat_lt
  rw [immediate, toNat_makeImmediate, ← UInt16.toNat_inj, UInt16.toNat_ofNat']
  omega

@[simp] theorem opcode_makeImmediate : (makeImmediate opcode target value).opcode = opcode := by
  have ho := opcode.toNat_lt
  have ht := target.toNat_lt
  have hv := value.toNat_lt
  rw [Word.opcode, toNat_makeImmediate, ← UInt8.toNat_inj, UInt8.toNat_ofNat']
  omega

@[simp] theorem target_makeImmediate : (makeImmediate opcode target value).target = target := by
  have ht := target.toNat_lt
  have hv := value.toNat_lt
  rw [Word.target, toNat_makeImmediate, ← UInt8.toNat_inj, UInt8.toNat_ofNat']
  omega

end Immediate

section Bytes

variable (opcode target operand1 operand2 : UInt8)

theorem toNat_make : (make opcode target operand1 operand2).bits.toNat =
    ((opcode.toNat * 256 + target.toNat) * 256 + operand1.toNat) * 256 + operand2.toNat := by
  have ho := opcode.toNat_lt
  have ht := target.toNat_lt
  have h1 := operand1.toNat_lt
  have h2 := operand2.toNat_lt
  rw [make, UInt32.toNat_ofNat']
  exact Nat.mod_eq_of_lt (by omega)

@[simp] theorem opcode_make : (make opcode target operand1 operand2).opcode = opcode := by
  have ho := opcode.toNat_lt
  have ht := target.toNat_lt
  have h1 := operand1.toNat_lt
  have h2 := operand2.toNat_lt
  rw [Word.opcode, toNat_make, ← UInt8.toNat_inj, UInt8.toNat_ofNat']
  omega

@[simp] theorem target_make : (make opcode target operand1 operand2).target = target := by
  have ht := target.toNat_lt
  have h1 := operand1.toNat_lt
  have h2 := operand2.toNat_lt
  rw [Word.target, toNat_make, ← UInt8.toNat_inj, UInt8.toNat_ofNat']
  omega

@[simp] theorem operand1_make : (make opcode target operand1 operand2).operand1 = operand1 := by
  have h1 := operand1.toNat_lt
  have h2 := operand2.toNat_lt
  rw [Word.operand1, toNat_make, ← UInt8.toNat_inj, UInt8.toNat_ofNat']
  omega

@[simp] theorem operand2_make : (make opcode target operand1 operand2).operand2 = operand2 := by
  have h2 := operand2.toNat_lt
  rw [Word.operand2, toNat_make, ← UInt8.toNat_inj, UInt8.toNat_ofNat']
  omega

end Bytes

end BarrelAsm.Word

namespace BarrelAsm.Pseudo

/-- The native instructions that a pseudo-instruction stands for. -/
def expansion (scratch : Register) : Pseudo → List Instruction
  | call r l => [.immediate .jal r l]
  | djnz r l => [.alu .add (.direct r) r (.direct .minusOne), .immediate .jnz r l]
  | jmp l => [.immediate .jal .zero l]
  | ret r => [.jalr r r]
  | sll t s => [.alu .add t s (.direct s)]
  | sub t a b =>
    [.alu .xor (.direct scratch) .minusOne b,
      .alu .add (.direct scratch) scratch (.direct .one),
      .alu .add t a (.direct scratch)]
  | order op t a b => [.compare op.native t b a]
  | step op r => [.alu .add (.direct r) r (.direct op.amount)]
  | branch op a b l =>
    [.immediate .ldi scratch l,
      if op.exchanges then .compare op.native scratch b a else .compare op.native scratch a b]
  | bitBranch op r n l => [.immediate .ldi scratch l, .bitTest op.native scratch n r]
  | ld t s => [.alu .add (.direct t) .zero ⟨s, true⟩]
  | st t s => [.alu .add ⟨t, true⟩ .zero (.direct s)]
  | mov t s => [.alu .add t .zero s]

variable (p : Pseudo) (scratch : Register)

/-- The words, made from opcodes and flags, are what the native instructions are encoded as. -/
theorem words_eq_map_expansion : p.words scratch = (p.expansion scratch).map Instruction.word := by
  cases p with
  | branch op a b l => cases op <;> rfl
  | _ => rfl

theorem length_expansion : (p.expansion scratch).length = p.op.size := by
  cases p <;> rfl

theorem length_words : (p.words scratch).length = p.op.size := by
  rw [words_eq_map_expansion, List.length_map, length_expansion]

end BarrelAsm.Pseudo
