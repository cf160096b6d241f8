import BarrelAsm.Proofs.Operand
import BarrelAsm.Proofs.Scratch
import Mathlib.Data.List.Forall2

/-! Pseudo-instructions written out by hand. The words of an expansion are those of native
instructions with the same operands and with names for the registers that the expansion adds. -/
namespace BarrelAsm

/-- The kinds of operand that pseudo-instructions take. -/
inductive OperandKind where
  | register | operand | indirection | label | bit
deriving DecidableEq, Repr

/-- The tokens are an operand of this kind. -/
def OperandKind.Reads (s : Scope) : OperandKind → List Token → Prop
  | register, x => ∃ r, s.IsRegister x r
  | operand, x => ∃ o, s.IsOperand x o
  | indirection, x => ∃ r, s.IsIndirection x r
  | label, x => ∃ l, s.IsLabel x l
  | bit, x => ∃ b, s.IsBit x b

/-- Operands for the registers that an expansion adds. -/
structure AddedRegisters where
  zero : List Token
  one : List Token
  minusOne : List Token
  scratch : List Token

/-- The operands name registers 0, 1, 2 and the scratch register. -/
structure AddedRegisters.In (n : AddedRegisters) (s : Scope) (scratch : Register) : Prop where
  zero : s.IsRegister n.zero 0x00
  one : s.IsRegister n.one 0x01
  minusOne : s.IsRegister n.minusOne 0x02
  scratch : s.IsRegister n.scratch scratch

namespace PseudoOp

/-- The operands of a pseudo-instruction. -/
def operandKinds : PseudoOp → List OperandKind
  | call | djnz => [.register, .label]
  | jmp => [.label]
  | ret | step _ => [.register]
  | sll => [.operand, .register]
  | sub => [.operand, .register, .operand]
  | order _ => [.register, .register, .register]
  | branch _ => [.register, .register, .label]
  | bitBranch _ => [.register, .bit, .label]
  | ld => [.register, .indirection]
  | st => [.indirection, .register]
  | mov => [.operand, .operand]

/-- The native instructions, and their operands, that a pseudo-instruction stands for. -/
def native (n : AddedRegisters) :
    PseudoOp → List (List Token) → List (Mnemonic × List (List Token))
  | call, [r, l] => [(.immediate .jal, [r, l])]
  | jmp, [l] => [(.immediate .jal, [n.zero, l])]
  | ret, [r] => [(.jalr, [r, r])]
  | djnz, [r, l] => [(.alu .add, [r, r, n.minusOne]), (.immediate .jnz, [r, l])]
  | step .inc, [r] => [(.alu .add, [r, r, n.one])]
  | step .dec, [r] => [(.alu .add, [r, r, n.minusOne])]
  | sll, [d, s] => [(.alu .add, [d, s, s])]
  | sub, [d, a, b] =>
    [(.alu .xor, [n.scratch, n.minusOne, b]),
      (.alu .add, [n.scratch, n.scratch, n.one]),
      (.alu .add, [d, a, n.scratch])]
  | order .jler, [t, a, b] => [(.compare .jger, [t, b, a])]
  | order .jgtr, [t, a, b] => [(.compare .jltr, [t, b, a])]
  | branch .jeq, [a, b, l] =>
    [(.immediate .ldi, [n.scratch, l]), (.compare .jeqr, [n.scratch, a, b])]
  | branch .jne, [a, b, l] =>
    [(.immediate .ldi, [n.scratch, l]), (.compare .jner, [n.scratch, a, b])]
  | branch .jlt, [a, b, l] =>
    [(.immediate .ldi, [n.scratch, l]), (.compare .jltr, [n.scratch, a, b])]
  | branch .jge, [a, b, l] =>
    [(.immediate .ldi, [n.scratch, l]), (.compare .jger, [n.scratch, a, b])]
  | branch .jgt, [a, b, l] =>
    [(.immediate .ldi, [n.scratch, l]), (.compare .jltr, [n.scratch, b, a])]
  | branch .jle, [a, b, l] =>
    [(.immediate .ldi, [n.scratch, l]), (.compare .jger, [n.scratch, b, a])]
  | bitBranch .jbs, [r, b, l] =>
    [(.immediate .ldi, [n.scratch, l]), (.bitTest .jbsr, [n.scratch, b, r])]
  | bitBranch .jbc, [r, b, l] =>
    [(.immediate .ldi, [n.scratch, l]), (.bitTest .jbcr, [n.scratch, b, r])]
  | ld, [d, s] => [(.alu .add, [d, n.zero, s])]
  | st, [d, s] => [(.alu .add, [d, n.zero, s])]
  | mov, [d, s] => [(.alu .add, [d, n.zero, s])]
  | _, _ => []

end PseudoOp

/-- The instructions that native lines read as. -/
def NativeReads (s : Scope) : List (Mnemonic × List (List Token)) → List Instruction → Prop :=
  List.Forall₂ fun n i => Instruction.readAll s n.1 (Token.join n.2) = (.ok i, [])

namespace Token

variable {R : OperandKind → List Token → Prop} {i j k : OperandKind} {ts : List Token}

theorem operands_one (h : List.Forall₂ R [k] (operands ts)) : operands ts = [ts] ∧ R k ts := by
  rcases ho : operands ts with _ | ⟨x, _ | ⟨y, xs⟩⟩ <;> rw [ho] at h
  · cases h
  · rw [operands_eq_singleton ho]
    exact ⟨rfl, (List.forall₂_cons.mp h).1⟩
  · cases (List.forall₂_cons.mp h).2

theorem operands_two (h : List.Forall₂ R [j, k] (operands ts)) :
    ∃ x c y, c.kind = .comma ∧ ts = x ++ c :: y ∧ operands ts = [x, y] ∧ R j x ∧ R k y := by
  rcases ho : operands ts with _ | ⟨x, _ | ⟨y, xs⟩⟩ <;> rw [ho] at h
  · cases h
  · cases (List.forall₂_cons.mp h).2
  · obtain ⟨hx, hrest⟩ := List.forall₂_cons.mp h
    obtain ⟨c, rest, hc, rfl, hr⟩ := operands_eq_cons ho
    rw [← hr] at hrest
    obtain ⟨hone, hy⟩ := operands_one hrest
    rw [← hr, hone]
    exact ⟨x, c, rest, hc, rfl, rfl, hx, hy⟩

theorem operands_three (h : List.Forall₂ R [i, j, k] (operands ts)) :
    ∃ x c y d z, c.kind = .comma ∧ d.kind = .comma ∧ ts = x ++ c :: (y ++ d :: z) ∧
      operands ts = [x, y, z] ∧ R i x ∧ R j y ∧ R k z := by
  rcases ho : operands ts with _ | ⟨x, _ | ⟨y, xs⟩⟩ <;> rw [ho] at h
  · cases h
  · cases (List.forall₂_cons.mp h).2
  · obtain ⟨hx, hrest⟩ := List.forall₂_cons.mp h
    obtain ⟨c, rest, hc, rfl, hr⟩ := operands_eq_cons ho
    rw [← hr] at hrest
    obtain ⟨y', d, z, hd, rfl, htwo, hy, hz⟩ := operands_two hrest
    rw [← hr, htwo]
    exact ⟨x, c, y', d, z, hc, hd, rfl, rfl, hx, hy, hz⟩

end Token

/-- Operands of the right kinds are read, and the native lines read as the expansion. -/
theorem Pseudo.exists_read {s : Scope} {op : PseudoOp} {ts : List Token}
    (h : List.Forall₂ (OperandKind.Reads s) op.operandKinds (Token.operands ts)) :
    ∃ p, Pseudo.read s op ts = (.ok p, []) ∧ ∀ n scratch, AddedRegisters.In n s scratch →
      NativeReads s (op.native n (Token.operands ts)) (p.expansion scratch) := by
  cases op with
  | call =>
    obtain ⟨x, c, y, hc, rfl, ho, ⟨r, hx⟩, ⟨l, hy⟩⟩ := Token.operands_two h
    refine ⟨.call r (.ofInt l), (hx.takes.sep hc).trans (hy.takes.last _), fun n S hn => ?_⟩
    rw [ho]
    exact .cons (Instruction.readAll_immediate _ hx hy.isValue) .nil
  | djnz =>
    obtain ⟨x, c, y, hc, rfl, ho, ⟨r, hx⟩, ⟨l, hy⟩⟩ := Token.operands_two h
    refine ⟨.djnz r (.ofInt l), (hx.takes.sep hc).trans (hy.takes.last _), fun n S hn => ?_⟩
    rw [ho]
    have hadd := Instruction.readAll_alu .add hx.isOperand hx hn.minusOne.isOperand
    have hjump := Instruction.readAll_immediate .jnz hx hy.isValue
    exact .cons hadd (.cons hjump .nil)
  | jmp =>
    obtain ⟨ho, l, hl⟩ := Token.operands_one h
    refine ⟨.jmp (.ofInt l), hl.takes.last _, fun n S hn => ?_⟩
    rw [ho]
    exact .cons (Instruction.readAll_immediate _ hn.zero hl.isValue) .nil
  | ret =>
    obtain ⟨ho, r, hr⟩ := Token.operands_one h
    refine ⟨.ret r, hr.takes.last _, fun n S hn => ?_⟩
    rw [ho]
    exact .cons (Instruction.readAll_jalr hr hr) .nil
  | sll =>
    obtain ⟨x, c, y, hc, rfl, ho, ⟨o, hx⟩, ⟨r, hy⟩⟩ := Token.operands_two h
    refine ⟨.sll o r, (hx.takes.sep hc).trans (hy.takes.last _), fun n S hn => ?_⟩
    rw [ho]
    exact .cons (Instruction.readAll_alu _ hx hy hy.isOperand) .nil
  | sub =>
    obtain ⟨x, c, y, d, z, hc, hd, rfl, ho, ⟨o, hx⟩, ⟨r, hy⟩, ⟨o', hz⟩⟩ := Token.operands_three h
    refine ⟨.sub o r o',
      (hx.takes.sep hc).trans ((hy.takes.sep hd).trans (hz.takes.last _)), fun n S hn => ?_⟩
    rw [ho]
    have hxor := Instruction.readAll_alu .xor hn.scratch.isOperand hn.minusOne hz
    have hneg := Instruction.readAll_alu .add hn.scratch.isOperand hn.scratch hn.one.isOperand
    have hadd := Instruction.readAll_alu .add hx hy hn.scratch.isOperand
    exact .cons hxor (.cons hneg (.cons hadd .nil))
  | order op =>
    obtain ⟨x, c, y, d, z, hc, hd, rfl, ho, ⟨t, hx⟩, ⟨l, hy⟩, ⟨r, hz⟩⟩ := Token.operands_three h
    refine ⟨.order op t l r,
      (hx.takes.sep hc).trans ((hy.takes.sep hd).trans (hz.takes.last _)), fun n S hn => ?_⟩
    rw [ho]
    cases op <;> exact .cons (Instruction.readAll_compare _ hx hz hy) .nil
  | step op =>
    obtain ⟨ho, r, hr⟩ := Token.operands_one h
    refine ⟨.step op r, hr.takes.last _, fun n S hn => ?_⟩
    rw [ho]
    cases op with
    | inc => exact .cons (Instruction.readAll_alu _ hr.isOperand hr hn.one.isOperand) .nil
    | dec => exact .cons (Instruction.readAll_alu _ hr.isOperand hr hn.minusOne.isOperand) .nil
  | branch op =>
    obtain ⟨x, c, y, d, z, hc, hd, rfl, ho, ⟨l, hx⟩, ⟨r, hy⟩, ⟨v, hz⟩⟩ := Token.operands_three h
    refine ⟨.branch op l r (.ofInt v),
      (hx.takes.sep hc).trans ((hy.takes.sep hd).trans (hz.takes.last _)), fun n S hn => ?_⟩
    rw [ho]
    have hload := Instruction.readAll_immediate .ldi hn.scratch hz.isValue
    cases op with
    | jgt | jle =>
      exact .cons hload (.cons (Instruction.readAll_compare _ hn.scratch hy hx) .nil)
    | _ => exact .cons hload (.cons (Instruction.readAll_compare _ hn.scratch hx hy) .nil)
  | bitBranch op =>
    obtain ⟨x, c, y, d, z, hc, hd, rfl, ho, ⟨r, hx⟩, ⟨b, hy⟩, ⟨v, hz⟩⟩ := Token.operands_three h
    refine ⟨.bitBranch op r b (.ofInt v),
      (hx.takes.sep hc).trans ((hy.takes.sep hd).trans (hz.takes.last _)), fun n S hn => ?_⟩
    rw [ho]
    have hload := Instruction.readAll_immediate .ldi hn.scratch hz.isValue
    cases op <;>
      exact .cons hload (.cons (Instruction.readAll_bitTest _ hn.scratch hy hx) .nil)
  | ld =>
    obtain ⟨x, c, y, hc, rfl, ho, ⟨t, hx⟩, ⟨r, hy⟩⟩ := Token.operands_two h
    refine ⟨.ld t r, (hx.takes.sep hc).trans (hy.takes.last _), fun n S hn => ?_⟩
    rw [ho]
    exact .cons (Instruction.readAll_alu _ hx.isOperand hn.zero hy.isOperand) .nil
  | st =>
    obtain ⟨x, c, y, hc, rfl, ho, ⟨t, hx⟩, ⟨r, hy⟩⟩ := Token.operands_two h
    refine ⟨.st t r, (hx.takes.sep hc).trans (hy.takes.last _), fun n S hn => ?_⟩
    rw [ho]
    exact .cons (Instruction.readAll_alu _ hx.isOperand hn.zero hy.isOperand) .nil
  | mov =>
    obtain ⟨x, c, y, hc, rfl, ho, ⟨o, hx⟩, ⟨o', hy⟩⟩ := Token.operands_two h
    refine ⟨.mov o o', (hx.takes.sep hc).trans (hy.takes.last _), fun n S hn => ?_⟩
    rw [ho]
    exact .cons (Instruction.readAll_alu _ hx hn.zero hy) .nil

namespace Assembly

/-- Assemble native instructions for a line, one after the other. -/
def encodeAll (line : Line) : List (Mnemonic × List (List Token)) → Assembly → Outcome
  | [], a => (a, none)
  | (m, xs) :: ns, a =>
    match a.encode line m (Token.join xs) with
    | (a, none) => encodeAll line ns a
    | (a, some f) => (a, some f)

theorem encodeAll_of_reads {line : Line} {ns : List (Mnemonic × List (List Token))}
    {is : List Instruction} {c : Assembly} (h : NativeReads c.scope ns is) :
    ∃ d, encodeAll line ns c = (d, none) ∧
      d.program.words = c.program.words ++ is.map Instruction.word := by
  induction ns generalizing is c with
  | nil =>
    cases h
    exact ⟨c, rfl, by simp⟩
  | cons n ns ih =>
    obtain ⟨m, xs⟩ := n
    cases h with
    | @cons _ i _ is hi hrest =>
      have hemit : c.encode line m (Token.join xs) = (c.emit line i.word, none) := by
        rw [encode_eq, hi]
        rfl
      obtain ⟨d, hd, hwords⟩ := ih (c := c.emit line i.word) hrest
      refine ⟨d, ?_, ?_⟩
      · rw [encodeAll, hemit]
        exact hd
      · rw [hwords]
        simp [words_program, emit, list]

variable {a b : Assembly} {line : Line} {op : PseudoOp} {ts : List Token} {p : Pseudo}
  {r : Register}

theorem expand_of_read (hp : Pseudo.read a.scope op ts = (.ok p, []))
    (hs : a.scratchFor line p = (b, .ok r)) :
    a.expand line op ts = (b.emitExpansion line (p.words r), none) := by
  rw [expand_eq, hp]
  dsimp only
  rw [hs]
  rfl

/-- A scratch register can be had if the scope has one, or if a register is left. -/
def ScratchObtainable (a : Assembly) : Prop :=
  (a.symbols.get? (scratchName a.process)).isSome ∨ a.registerNext < registerLimit

theorem exists_scratch_of_obtainable (line : Line) (h : a.ScratchObtainable) :
    ∃ b sym, a.scratch line = (b, .ok (UInt8.ofInt sym.location)) ∧
      b.symbols.get? (scratchName a.process) = some sym := by
  rw [scratch_eq]
  rcases hg : a.symbols.get? (scratchName a.process) with _ | sym
  · have hlt : a.registerNext < registerLimit := by simpa [ScratchObtainable, hg] using h
    have hins : a.nameRegister (scratchName a.process) 0 = .ok ⟨a.symbols.entries ++
        [(scratchName a.process, ⟨.register, 0, 1, a.registerNext⟩)]⟩ := by
      rw [nameRegister, if_neg (by omega), SymbolTable.insert, hg]
      rfl
    have hnew := SymbolTable.get?_insert (nameRegister_ok hins).2 (scratchName a.process)
    rw [if_pos rfl] at hnew
    rw [hins]
    dsimp only
    rw [← Arith.uint8_ofInt_natCast]
    refine ⟨_, ⟨.register, 0, 1, a.registerNext⟩, rfl, ?_⟩
    exact hnew
  · exact ⟨a, sym, rfl, hg⟩

theorem exists_scratchFor (line : Line) (p : Pseudo)
    (h : p.usesScratch = true → a.ScratchObtainable) :
    ∃ b r, a.scratchFor line p = (b, .ok r) ∧ (p.usesScratch = true →
      ∃ sym, b.symbols.get? (scratchName a.process) = some sym ∧ r = UInt8.ofInt sym.location) := by
  rw [scratchFor_eq_ite]
  split_ifs with hp
  · obtain ⟨b, sym, hb, hsym⟩ := exists_scratch_of_obtainable line (h hp)
    exact ⟨b, _, hb, fun _ => ⟨sym, hsym, rfl⟩⟩
  · exact ⟨a, .zero, rfl, fun hu => absurd hu hp⟩

end Assembly

namespace Scope

/-- A register can be given a new name, whatever names have to keep their meaning. -/
theorem exists_name (s : Scope) (names : List Text) (r : Register) :
    ∃ n t, s.symbols.entries <+: t.entries ∧
      (∀ m ∈ names, (⟨t, s.process⟩ : Scope).lookup m = s.lookup m) ∧
      (⟨t, s.process⟩ : Scope).registerNamed n = .ok r := by
  -- A text that is longer than all of those in use is new, also behind the name of the process.
  let used := s.symbols.entries.map Prod.fst ++ names
  let n : Text := 0 :: used.flatten
  let key := qualifier s.process ++ n
  have hnew : ∀ m ∈ used, m ≠ key ∧ m ≠ n := by
    intro m hm
    have hle := (List.sublist_flatten_of_mem hm).length_le
    have hn : m.length < n.length := Nat.lt_succ_of_le hle
    have hkey : n.length ≤ key.length := by simp [key]
    constructor
    · rintro rfl
      omega
    · rintro rfl
      omega
  have hfree : s.symbols.get? key = none := by
    refine List.lookup_eq_none_iff.mpr fun e he => ?_
    have hm : e.1 ∈ used := List.mem_append_left _ (List.mem_map_of_mem he)
    simpa using (hnew e.1 hm).1.symm
  let sym : Symbol := ⟨.register, 0, 1, r.toNat⟩
  let t : SymbolTable := ⟨s.symbols.entries ++ [(key, sym)]⟩
  have hins : s.symbols.insert key sym = .ok t := by
    rw [SymbolTable.insert, hfree]
    rfl
  have hget := SymbolTable.get?_insert hins
  refine ⟨n, t, List.prefix_append _ _, ?_, ?_⟩
  · intro m hm
    have hmem : m ∈ used := List.mem_append_right _ hm
    have hq : qualifier s.process ++ m ≠ key := by
      intro he
      exact (hnew m hmem).2 (List.append_cancel_left he)
    unfold lookup SymbolTable.lookup
    dsimp only
    rw [hget, hget, if_neg hq, if_neg (hnew m hmem).1]
  · have hlook : (⟨t, s.process⟩ : Scope).lookup n = .ok sym := by
      unfold lookup SymbolTable.lookup
      dsimp only
      rw [hget, if_pos rfl]
      rfl
    unfold registerNamed
    rw [hlook]
    simp [sym, bind, Except.bind, Arith.uint8_ofInt_natCast]
    rfl

theorem exists_names (s : Scope) (names : List Text) (rs : List Register) :
    ∃ ns t, s.symbols.entries <+: t.entries ∧
      (∀ m ∈ names, (⟨t, s.process⟩ : Scope).lookup m = s.lookup m) ∧
      List.Forall₂ (fun n r => (⟨t, s.process⟩ : Scope).registerNamed n = .ok r) ns rs := by
  induction rs generalizing s names with
  | nil => exact ⟨[], s.symbols, List.prefix_refl _, fun _ _ => rfl, .nil⟩
  | cons r rs ih =>
    obtain ⟨n, t, hpre, hkeep, hn⟩ := s.exists_name names r
    obtain ⟨ns, t', hpre', hkeep', hns⟩ := ih ⟨t, s.process⟩ (n :: names)
    refine ⟨n :: ns, t', hpre.trans hpre', ?_, .cons ?_ hns⟩
    · intro m hm
      exact (hkeep' m (List.mem_cons_of_mem n hm)).trans (hkeep m hm)
    · rw [registerNamed_congr (hkeep' n List.mem_cons_self)]
      exact hn

/-- There are names for all registers that an expansion adds. -/
theorem exists_addedRegisters (s : Scope) (ts : List Token) (scratch : Register) :
    ∃ n t, s.symbols.entries <+: t.entries ∧ s.Agree ⟨t, s.process⟩ ts ∧
      AddedRegisters.In n ⟨t, s.process⟩ scratch := by
  obtain ⟨ns, t, hpre, hkeep, hns⟩ :=
    s.exists_names (ts.flatMap Token.names) [0x00, 0x01, 0x02, scratch]
  rcases hns with _ | ⟨hz, _ | ⟨ho, _ | ⟨hm, _ | ⟨hc, _⟩⟩⟩⟩
  have hword : ∀ {n : Text} {r : Register}, (⟨t, s.process⟩ : Scope).registerNamed n = .ok r →
      (⟨t, s.process⟩ : Scope).IsRegister [⟨.identifier, n, 0⟩] r :=
    fun h => ⟨_, rfl, rfl, h⟩
  refine ⟨⟨_, _, _, _⟩, t, hpre, ?_, ⟨hword hz, hword ho, hword hm, hword hc⟩⟩
  intro u hu n hn
  exact (hkeep n (List.mem_flatMap.mpr ⟨u, hu, hn⟩)).symm

end Scope

theorem OperandKind.Reads.congr {s s' : Scope} {k : OperandKind} {x : List Token}
    (hs : s.Agree s' x) (h : k.Reads s x) : k.Reads s' x := by
  cases k with
  | register | operand | indirection | label | bit =>
    obtain ⟨v, hv⟩ := h
    exact ⟨v, hv.congr hs⟩

theorem OperandKind.forall₂_congr {s s' : Scope} {ks : List OperandKind} {xs : List (List Token)}
    (h : List.Forall₂ (Reads s) ks xs) (hs : ∀ x ∈ xs, s.Agree s' x) :
    List.Forall₂ (Reads s') ks xs := by
  induction h with
  | nil => exact .nil
  | cons hk _ ih =>
    obtain ⟨hx, hxs⟩ := List.forall_mem_cons.mp hs
    exact .cons (hk.congr hx) (ih hxs)

namespace Assembly

/-- Operands of the kinds that a pseudo-instruction takes are assembled, and the words are those of
its native instructions, whatever the registers are called that these add to the operands. -/
theorem expand_eq_encodeAll {a : Assembly} {line : Line} {op : PseudoOp} {ts : List Token}
    (hread : List.Forall₂ (OperandKind.Reads a.scope) op.operandKinds (Token.operands ts))
    (hscratch : op.usesScratch = true → a.ScratchObtainable) :
    ∃ (b : Assembly) (ws : List Word) (scratch : Register),
      a.expand line op ts = (b, none) ∧
      b.opcodes = a.opcodes.push ⟨line.number, a.pc, ws, line.text⟩ ∧
      b.pc = a.pc + ws.length ∧
      (op.usesScratch = true → ∃ sym, b.symbols.get? (scratchName a.process) = some sym ∧
        scratch = UInt8.ofInt sym.location) ∧
      (∃ (n : AddedRegisters) (c : Assembly), c = { a with symbols := c.symbols } ∧
        a.symbols.entries <+: c.symbols.entries ∧ a.scope.Agree c.scope ts ∧
        AddedRegisters.In n c.scope scratch) ∧
      ∀ n c, a.scope.Agree c.scope ts → AddedRegisters.In n c.scope scratch →
        ∃ d, encodeAll line (op.native n (Token.operands ts)) c = (d, none) ∧
          d.program.words = c.program.words ++ ws := by
  obtain ⟨p, hp, -⟩ := Pseudo.exists_read hread
  have hop := Pseudo.op_of_read hp
  rw [← hop, Pseudo.usesScratch_op] at hscratch
  obtain ⟨b, r, hb, hsym⟩ := exists_scratchFor line p hscratch
  have hexpand := expand_of_read hp hb
  have hsame := scratchFor_eq hb
  refine ⟨_, p.words r, r, hexpand, ?_, ?_, ?_, ?_, ?_⟩
  · rw [hsame]
    rfl
  · rw [hsame]
    rfl
  · rw [← hop, Pseudo.usesScratch_op]
    exact hsym
  · obtain ⟨n, t, hpre, hagree, hn⟩ := a.scope.exists_addedRegisters ts r
    exact ⟨n, { a with symbols := t }, rfl, hpre, hagree, hn⟩
  · intro n c hagree hn
    have hread' := OperandKind.forall₂_congr hread fun x hx =>
      hagree.subset (Token.subset_of_mem_operands hx)
    obtain ⟨p', hp', hnative⟩ := Pseudo.exists_read hread'
    rw [← (Reader.Alike.pseudo op).eq ts hagree, hp] at hp'
    cases hp'
    rw [Pseudo.words_eq_map_expansion]
    exact encodeAll_of_reads (hnative n r hn)

/-- In a process `p` with a label: register 3 is its own and register 4 is global. -/
def branching : Assembly :=
  { symbols := ⟨[("y", ⟨.register, 0, 1, 4⟩), ("p.x", ⟨.register, 0, 1, 3⟩),
      ("p.loop", ⟨.label, 7, 1, 7⟩)]⟩
    process := some "p"
    registerNext := 5
    pc := 9 }

/-- The operands `x, 2+1, loop`. -/
def branchOperands : List Token :=
  [⟨.identifier, "x", 0⟩, .comma, ⟨.number, "2", 2⟩, ⟨.operator, "+", 0⟩, ⟨.number, "1", 1⟩, .comma,
    ⟨.identifier, "loop", 0⟩]

theorem expand_eq_encodeAll_branch :
    List.Forall₂ (OperandKind.Reads branching.scope) [.register, .bit, .label]
        (Token.operands branchOperands) ∧
      branching.ScratchObtainable ∧
      ∃ b n c d, branching.expand ⟨1, []⟩ (.bitBranch .jbs) branchOperands = (b, none) ∧
        AddedRegisters.In n c.scope 0x05 ∧
        encodeAll ⟨1, []⟩ (PseudoOp.native n (.bitBranch .jbs) (Token.operands branchOperands)) c =
          (d, none) ∧
        d.program.words =
          c.program.words ++ [.makeImmediate 0x11 0x05 7, .make 0x9D 0x05 3 0x03] := by
  have hread : List.Forall₂ (OperandKind.Reads branching.scope) [.register, .bit, .label]
      (Token.operands branchOperands) :=
    .cons ⟨3, _, rfl, rfl, rfl⟩
      (.cons ⟨3, 3, rfl, by decide, by decide, rfl⟩ (.cons ⟨7, _, rfl, rfl, rfl⟩ .nil))
  have hscratch : branching.ScratchObtainable := .inr (by decide)
  obtain ⟨b, ws, r, hb, hops, -, hsym, ⟨n, c, -, -, hagree, hn⟩, hnative⟩ :=
    @expand_eq_encodeAll branching ⟨1, []⟩ (.bitBranch .jbs) branchOperands hread fun _ => hscratch
  obtain ⟨d, hd, hwords⟩ := hnative n c hagree hn
  obtain ⟨sym, hget, rfl⟩ := hsym rfl
  have hfst : b = (branching.expand ⟨1, []⟩ (.bitBranch .jbs) branchOperands).1 := by rw [hb]
  rw [expand_eq] at hfst
  have hloc : sym = ⟨.register, 0, 1, 5⟩ := by
    rw [hfst] at hget
    exact (Option.some.inj hget).symm
  have hws : ws = [.makeImmediate 0x11 0x05 7, .make 0x9D 0x05 3 0x03] := by
    rw [hfst] at hops
    have hlast := congrArg Array.toList hops
    exact (Opcode.mk.inj (List.cons.inj hlast).1).2.2.1.symm
  subst hloc hws
  exact ⟨hread, hscratch, b, n, c, d, hb, hn, hd, hwords⟩

end Assembly
end BarrelAsm
