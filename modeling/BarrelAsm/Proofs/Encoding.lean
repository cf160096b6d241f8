import BarrelAsm.Proofs.Argument
import BarrelAsm.Proofs.RegisterTable
import BarrelAsm.Proofs.Word

/-! Reading instruction words back. The opcode byte tells the mnemonic and which operands are
indirect, so that two words are the same only for the same mnemonic with the same operands. -/
namespace BarrelAsm

/-- The operands that can be indirect, as flags of the target and of the second operand. -/
def Family.indirections : Family → List (Bool × Bool)
  | alu | bitFlag => [(false, false), (true, false), (false, true), (true, true)]
  | shift => [(false, false), (true, false)]
  | _ => [(false, false)]

namespace Mnemonic

/-- The mnemonics with their indirections. A word without operation is an addition. -/
def heads : List (Mnemonic × Bool × Bool) :=
  (all.filter (· ≠ nop)).flatMap fun m => m.family.indirections.map fun f => (m, f)

/-- The mnemonic and the indirections of an opcode byte. -/
def ofOpcode? (opcode : UInt8) : Option (Mnemonic × Bool × Bool) :=
  heads.find? fun h => Instruction.flagged h.1.opcode h.2.1 h.2.2 = opcode

/-- The flags stand in bits that opcodes use as well, but no two heads have the same byte. -/
theorem ofOpcode?_flagged : ∀ h ∈ heads,
    ofOpcode? (Instruction.flagged h.1.opcode h.2.1 h.2.2) = some h := by
  decide

theorem mem_all (m : Mnemonic) : m ∈ all := by
  rcases m with (_ | _ | _ | _) | _ | (_ | _ | _ | _) | _ | (_ | _ | _ | _) | (_ | _) | (_ | _) | _
  all_goals decide

theorem mem_heads {m : Mnemonic} {f : Bool × Bool} (hm : m ≠ nop)
    (hf : f ∈ m.family.indirections) : (m, f) ∈ heads := by
  refine List.mem_flatMap.mpr ⟨m, ?_, List.mem_map.mpr ⟨f, hf, rfl⟩⟩
  exact List.mem_filter.mpr ⟨mem_all m, by simpa using hm⟩

end Mnemonic

namespace Argument

/-- The byte that an operand takes up in a word. -/
def byte : Argument → UInt8
  | register l _ => UInt8.ofInt l
  | value v => UInt8.ofInt v

def indirect : Argument → Bool
  | register _ i => i
  | value _ => false

/-- The two bytes that a number takes up in a word. -/
def half : Argument → UInt16
  | register l _ => UInt16.ofInt l
  | value v => UInt16.ofInt v

@[simp] theorem byte_ofOperand (o : Operand) : (ofOperand o).byte = o.register := by
  simp [byte, ofOperand, Arith.uint8_ofInt_natCast]

@[simp] theorem byte_ofRegister (r : Register) : (ofRegister r).byte = r := byte_ofOperand _

@[simp] theorem byte_ofBit (b : UInt8) : (ofBit b).byte = b := by
  simp [byte, ofBit, Arith.uint8_ofInt_natCast]

@[simp] theorem indirect_ofOperand (o : Operand) : (ofOperand o).indirect = o.indirect := rfl

@[simp] theorem indirect_ofRegister (r : Register) : (ofRegister r).indirect = false := rfl

@[simp] theorem indirect_ofBit (b : UInt8) : (ofBit b).indirect = false := rfl

@[simp] theorem half_value (v : UInt16) : (value v.toNat).half = v := by
  rw [half, ← UInt16.toNat_inj]
  have h := Arith.toNat_uint16_ofInt v.toNat
  have hv := v.toNat_lt
  omega

end Argument

namespace Instruction

/-- The word of a mnemonic with all its operands. -/
def assemble : Mnemonic × List Argument → Word
  | (.immediate op, [t, v]) => .makeImmediate op.opcode t.byte v.half
  | (m, [t, l]) => .make (flagged m.opcode t.indirect false) t.byte l.byte 0
  | (m, [t, l, r]) => .make (flagged m.opcode t.indirect r.indirect) t.byte l.byte r.byte
  | (m, _) => .make m.opcode 0 0 0

theorem flagged_direct (opcode : UInt8) : flagged opcode false false = opcode := by
  simp [flagged]

theorem assemble_parts (i : Instruction) : assemble i.parts = i.word := by
  cases i with
  | nop => rfl
  | _ => simp [assemble, parts, word, flagged_direct, Mnemonic.opcode]

/-- The operands that the fields of a word stand for. -/
def fields (family : Family) (flags : Bool × Bool) (target operand1 operand2 : UInt8)
    (value : UInt16) : List Argument :=
  match family with
  | .alu => [.ofOperand ⟨target, flags.1⟩, .ofRegister operand1, .ofOperand ⟨operand2, flags.2⟩]
  | .shift => [.ofOperand ⟨target, flags.1⟩, .ofRegister operand1]
  | .immediate => [.ofRegister target, .value value.toNat]
  | .jump => [.ofRegister target, .ofRegister operand1]
  | .compare => [.ofRegister target, .ofRegister operand1, .ofRegister operand2]
  | .bitTest => [.ofRegister target, .ofBit operand1, .ofRegister operand2]
  | .bitFlag => [.ofOperand ⟨target, flags.1⟩, .ofBit operand1, .ofOperand ⟨operand2, flags.2⟩]
  | .nop => []

/-- The mnemonic and the operands that a word with these fields stands for. -/
def decode? (opcode target operand1 operand2 : UInt8) (value : UInt16) :
    Option (Mnemonic × List Argument) :=
  (Mnemonic.ofOpcode? opcode).map fun h =>
    (h.1, fields h.1.family h.2 target operand1 operand2 value)

section Decoding

variable {m : Mnemonic} {t s : Bool} (hm : m ≠ .nop) (target operand1 operand2 : UInt8)
  (value : UInt16)
include hm

theorem decode?_flagged (hf : (t, s) ∈ m.family.indirections) :
    decode? (flagged m.opcode t s) target operand1 operand2 value =
      some (m, fields m.family (t, s) target operand1 operand2 value) := by
  have hhead := Mnemonic.ofOpcode?_flagged (m, t, s) (Mnemonic.mem_heads hm hf)
  dsimp only at hhead
  rw [decode?, hhead]
  rfl

theorem decode?_opcode : decode? m.opcode target operand1 operand2 value =
    some (m, fields m.family (false, false) target operand1 operand2 value) := by
  have hf : (false, false) ∈ m.family.indirections := by
    cases m.family <;> simp [Family.indirections]
  have h := decode?_flagged hm target operand1 operand2 value hf
  rwa [flagged_direct] at h

end Decoding

theorem mem_indirections (t s : Bool) :
    (t, s) ∈ Family.indirections .alu ∧ (t, s) ∈ Family.indirections .bitFlag ∧
      (t, false) ∈ Family.indirections .shift := by
  cases t <;> cases s <;> decide

/-- The fields of a word are enough to tell its instruction. -/
theorem decode?_word (i : Instruction) :
    decode? i.word.opcode i.word.target i.word.operand1 i.word.operand2 i.word.immediate =
      some i.parts := by
  cases i with
  | alu op t l r =>
    obtain ⟨hf, -⟩ := mem_indirections t.indirect r.indirect
    simp only [word, Word.opcode_make, Word.target_make, Word.operand1_make, Word.operand2_make]
    exact decode?_flagged (m := .alu op) (by simp) _ _ _ _ hf
  | srl t s =>
    obtain ⟨-, -, hf⟩ := mem_indirections t.indirect false
    simp only [word, Word.opcode_make, Word.target_make, Word.operand1_make, Word.operand2_make]
    exact decode?_flagged (m := .srl) (by simp) _ _ _ _ hf
  | immediate op t v =>
    -- The operand bytes hold the immediate, and the family does not look at them.
    simp only [word, Word.opcode_makeImmediate, Word.target_makeImmediate,
      Word.immediate_makeImmediate]
    exact decode?_opcode (m := .immediate op) (by simp) _ _ _ _
  | jalr t s =>
    simp only [word, Word.opcode_make, Word.target_make, Word.operand1_make, Word.operand2_make]
    exact decode?_opcode (m := .jalr) (by simp) _ _ _ _
  | compare op t l r =>
    simp only [word, Word.opcode_make, Word.target_make, Word.operand1_make, Word.operand2_make]
    exact decode?_opcode (m := .compare op) (by simp) _ _ _ _
  | bitTest op t b s =>
    simp only [word, Word.opcode_make, Word.target_make, Word.operand1_make, Word.operand2_make]
    exact decode?_opcode (m := .bitTest op) (by simp) _ _ _ _
  | bitFlag op t b s =>
    obtain ⟨-, hf, -⟩ := mem_indirections t.indirect s.indirect
    simp only [word, Word.opcode_make, Word.target_make, Word.operand1_make, Word.operand2_make]
    exact decode?_flagged (m := .bitFlag op) (by simp) _ _ _ _ hf
  | nop =>
    simp only [word, Word.opcode_make, Word.target_make, Word.operand1_make, Word.operand2_make]
    exact decode?_opcode (m := .alu .add) (by simp) _ _ _ _

theorem word_eq_iff {i j : Instruction} : i.word = j.word ↔ i.parts = j.parts := by
  constructor
  · intro h
    have hi := decode?_word i
    rw [h, decode?_word j] at hi
    exact (Option.some.inj hi).symm
  · intro h
    rw [← assemble_parts, h, assemble_parts]

end Instruction

namespace Assembly

variable {a a' b b' c : Assembly} {line line' : Line} {m m' : Mnemonic} {ts ts' : List Token}
  {constants : Constants} {lines : List Line}

/-- The location of a register that an operand denotes fits into a byte. -/
theorem Visited.location_bounds (h : Visited constants lines c) (hs : c.symbols = a.symbols)
    {x : List Token} {l : Int} {i : Bool} (hx : a.scope.Denotes x (.register l i)) :
    0 ≤ l ∧ l < 256 := by
  obtain ⟨t, sym, -, -, hlookup, hkind, rfl⟩ := hx
  obtain ⟨n, hn⟩ : ∃ n, a.symbols.get? n = some sym :=
    (SymbolTable.lookup_ok hlookup).elim (fun hn => ⟨_, hn⟩) fun hn => ⟨_, hn⟩
  have hloc := h.registersExact.toNat_location ⟨hs ▸ hn, hkind⟩
  have hlt := (UInt8.ofInt sym.location).toNat_lt
  omega

/-- Two instructions that are accepted, with whatever tables, have the same word if and only if they
have the same mnemonic and the same operands once these are written out. The fields of the word tell
both. Of a location 8 bits are kept, which is all of it in an assembly, and of an immediate 16. -/
theorem encode_unambiguous (h : a.encode line m ts = (b, none))
    (h' : a'.encode line' m' ts' = (b', none)) :
    ∃ args args' w w', a.scope.DenotesAll ts args ∧ a'.scope.DenotesAll ts' args' ∧
      b.opcodes = a.opcodes.push ⟨line.number, a.pc, [w], line.text⟩ ∧
      b'.opcodes = a'.opcodes.push ⟨line'.number, a'.pc, [w'], line'.text⟩ ∧
      (w = w' ↔ m.spelledOut (args.map .cut) = m'.spelledOut (args'.map .cut)) ∧
      Instruction.decode? w.opcode w.target w.operand1 w.operand2 w.immediate =
        some (m.spelledOut (args.map .cut)) ∧
      (∀ other, a.scope.DenotesAll ts other → other = args) ∧
      ∀ constants lines c, Visited constants lines c → c.symbols = a.symbols →
        ∀ l i, .register l i ∈ args → 0 ≤ l ∧ l < 256 := by
  obtain ⟨i, hi, rfl⟩ := exists_read_of_encode h
  obtain ⟨j, hj, rfl⟩ := exists_read_of_encode h'
  obtain ⟨args, hargs, hparts⟩ := Instruction.exists_denotesAll hi
  obtain ⟨args', hargs', hparts'⟩ := Instruction.exists_denotesAll hj
  refine ⟨args, args', i.word, j.word, hargs, hargs', rfl, rfl, ?_, ?_, ?_, ?_⟩
  · rw [hparts, hparts']
    exact Instruction.word_eq_iff
  · rw [hparts]
    exact Instruction.decode?_word i
  · intro other hother
    exact hother.unique hargs
  · intro constants lines c hc hs l i hl
    obtain ⟨x, hx⟩ := hargs.exists_of_mem hl
    exact hc.location_bounds hs hx

/-- Register 5 under a name. -/
def naming (name : Text) : Assembly := { symbols := ⟨[(name, ⟨.register, 0, 1, 5⟩)]⟩ }

/-- The operands `(name), bit`. -/
def flagOperands (name : Text) : List Token :=
  [⟨.indirection, name, 0⟩, .comma, ⟨.number, "3", 3⟩]

theorem encode_unambiguous_flag :
    ∃ w, ((naming "x").encode ⟨1, "setb (x), 3"⟩ (.bitFlag .setb) (flagOperands "x")).1.opcodes =
        #[⟨1, 0, [w], "setb (x), 3"⟩] ∧
      ((naming "y").encode ⟨1, "setb (y), 3, (y)"⟩ (.bitFlag .setb)
          (flagOperands "y" ++ [.comma, ⟨.indirection, "y", 0⟩])).1.opcodes =
        #[⟨1, 0, [w], "setb (y), 3, (y)"⟩] := by
  have h : (naming "x").encode ⟨1, "setb (x), 3"⟩ (.bitFlag .setb) (flagOperands "x") =
      (((naming "x").encode ⟨1, "setb (x), 3"⟩ (.bitFlag .setb) (flagOperands "x")).1, none) := rfl
  have h' : (naming "y").encode ⟨1, "setb (y), 3, (y)"⟩ (.bitFlag .setb)
        (flagOperands "y" ++ [.comma, ⟨.indirection, "y", 0⟩]) =
      (((naming "y").encode ⟨1, "setb (y), 3, (y)"⟩ (.bitFlag .setb)
        (flagOperands "y" ++ [.comma, ⟨.indirection, "y", 0⟩])).1, none) := rfl
  obtain ⟨args, args', w, w', hargs, hargs', hw, hw', hiff, -⟩ := encode_unambiguous h h'
  have hx : (naming "x").scope.DenotesAll (flagOperands "x") [.register 5 true, .value 3] :=
    .cons ⟨_, _, rfl, rfl, rfl, rfl, rfl⟩ (.cons rfl .nil)
  have hy : (naming "y").scope.DenotesAll (flagOperands "y" ++ [.comma, ⟨.indirection, "y", 0⟩])
      [.register 5 true, .value 3, .register 5 true] :=
    .cons ⟨_, _, rfl, rfl, rfl, rfl, rfl⟩ (.cons rfl (.cons ⟨_, _, rfl, rfl, rfl, rfl, rfl⟩ .nil))
  have hsame : w = w' := by
    rw [hargs.unique hx, hargs'.unique hy] at hiff
    exact hiff.mpr rfl
  subst hsame
  exact ⟨w, hw, hw'⟩

end Assembly
end BarrelAsm
