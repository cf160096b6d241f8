import BarrelAsm.Proofs.Arith
import BarrelAsm.Proofs.Operand
import Mathlib.Data.List.Forall2

/-! What the operands of an instruction denote. An instruction that was read holds exactly that, cut
to the bits that it has for it. -/
namespace BarrelAsm

/-- What an operand denotes: the location of a register, or a number. -/
inductive Argument where
  | register (location : Int) (indirect : Bool)
  | value (v : Int)
deriving DecidableEq, Repr

namespace Argument

/-- An argument as an instruction holds it: 8 bits of a location and 16 bits of a number. -/
def cut : Argument → Argument
  | register l i => register (l % 256) i
  | value v => value (v % 65536)

def ofOperand (o : Operand) : Argument := register o.register.toNat o.indirect

def ofRegister (r : Register) : Argument := ofOperand (.direct r)

def ofBit (b : UInt8) : Argument := value b.toNat

end Argument

/-- The operand denotes the argument. -/
def Scope.Denotes (s : Scope) (x : List Token) : Argument → Prop
  | .register l i => ∃ t sym, x = [t] ∧ t.kind = (if i then .indirection else .identifier) ∧
      s.lookup t.text = .ok sym ∧ sym.kind = .register ∧ sym.location = l
  | .value v => s.IsValue x v

namespace Scope

variable {s : Scope} {x : List Token} {g : Argument}

theorem Denotes.ne_nil (h : s.Denotes x g) : x ≠ [] := by
  rintro rfl
  cases g with
  | register l i =>
    obtain ⟨t, sym, hx, -⟩ := h
    cases hx
  | value v => cases h

theorem not_isValue_of_register {t : Token} {sym : Symbol} (hk : t.kind ≠ .number)
    (hs : s.lookup t.text = .ok sym) (hkind : sym.kind = .register) (v : Int) :
    ¬s.IsValue [t] v := by
  intro h
  rw [IsValue, Expr.immediate_eq, Expr.evaluate] at h
  have hvalue : ∀ w, s.valueOf t ≠ .ok w := by
    intro w hw
    obtain ⟨u, hu, hw⟩ := except_bind_ok hw
    obtain ⟨rfl, -⟩ := Token.require_ok hu
    rw [if_neg hk] at hw
    obtain ⟨sym', hs', hw⟩ := except_bind_ok hw
    rw [hs] at hs'
    cases hs'
    rw [symbolValue, hkind] at hw
    cases hw
  rcases hw : s.valueOf t with f | w
  · rw [hw] at h
    cases h
  · exact hvalue w hw

/-- An operand denotes one argument only. -/
theorem Denotes.unique {g' : Argument} (h : s.Denotes x g) (h' : s.Denotes x g') : g = g' := by
  cases g with
  | register l i =>
    obtain ⟨t, sym, rfl, hk, hs, hkind, rfl⟩ := h
    cases g' with
    | register l' i' =>
      obtain ⟨t', sym', he, hk', hs', -, rfl⟩ := h'
      cases he
      rw [hs] at hs'
      cases hs'
      rw [hk] at hk'
      cases i <;> cases i' <;> simp_all
    | value v => exact absurd h' (not_isValue_of_register (by cases i <;> simp [hk]) hs hkind v)
  | value v =>
    cases g' with
    | register l' i' =>
      obtain ⟨t, sym, rfl, hk, hs, hkind, rfl⟩ := h'
      exact absurd h (not_isValue_of_register (by cases i' <;> simp [hk]) hs hkind v)
    | value v' =>
      have hv : Expr.immediate s x = (.ok v, []) := h
      have hv' : Expr.immediate s x = (.ok v', []) := h'
      rw [hv] at hv'
      cases hv'
      rfl

/-- A register that a name stands for is the one that the operand denotes. -/
theorem denotes_of_registerNamed {t : Token} {o : Operand}
    (hk : t.kind = if o.indirect then .indirection else .identifier)
    (h : s.registerNamed t.text = .ok o.register) :
    ∃ g, s.Denotes [t] g ∧ g.cut = .ofOperand o := by
  obtain ⟨sym, hs, hr⟩ := except_bind_ok h
  split_ifs at hr with hkind
  have hr : UInt8.ofInt sym.location = o.register := Except.ok.inj hr
  refine ⟨.register sym.location o.indirect, ⟨t, sym, rfl, hk, hs, hkind, rfl⟩, ?_⟩
  rw [Argument.ofOperand, ← hr, Arith.toNat_uint8_ofInt]
  rfl

theorem kind_ne_comma_of_valueOf {t : Token} {v : Int} (h : s.valueOf t = .ok v) :
    t.kind ≠ .comma := by
  obtain ⟨u, hu, -⟩ := except_bind_ok h
  obtain ⟨-, hk⟩ := Token.require_ok hu
  intro hcomma
  simp [valueKinds, hcomma] at hk

end Scope

namespace Token

/-- The operands of a statement; a statement without tokens has none. -/
def arguments : List Token → List (List Token)
  | [] => []
  | ts => operands ts

theorem operands_of_notMem {u : List Token} (h : ∀ t ∈ u, t.kind ≠ .comma) : operands u = [u] :=
  List.splitOnP_eq_singleton fun t ht => decide_eq_false (h t ht)

theorem operands_append_comma {u : List Token} {c : Token} (h : ∀ t ∈ u, t.kind ≠ .comma)
    (hc : c.kind = .comma) (ts : List Token) : operands (u ++ c :: ts) = u :: operands ts := by
  have hsplit : operands (u ++ c :: ts) = operands u ++ operands ts :=
    List.splitOnP_append_cons u ts (decide_eq_true hc)
  rw [hsplit, operands_of_notMem h]
  rfl

end Token

/-- The operands that the tokens are split into denote these arguments. -/
def Scope.DenotesAll (s : Scope) (ts : List Token) (args : List Argument) : Prop :=
  List.Forall₂ s.Denotes (Token.arguments ts) args

namespace Scope

variable {s : Scope} {ts : List Token} {args : List Argument}

theorem denotesAll_of_operands (h : List.Forall₂ s.Denotes (Token.operands ts) args) :
    s.DenotesAll ts args := by
  cases ts with
  | nil =>
    rcases h with _ | ⟨hx, -⟩
    exact absurd rfl hx.ne_nil
  | cons t ts => exact h

theorem DenotesAll.unique {args' : List Argument} (h : s.DenotesAll ts args)
    (h' : s.DenotesAll ts args') : args = args' := by
  have hunique : Relator.RightUnique s.Denotes := fun _ _ _ => Denotes.unique
  exact hunique.forall₂ h h'

theorem DenotesAll.exists_of_mem {g : Argument} (h : s.DenotesAll ts args) (hg : g ∈ args) :
    ∃ x, s.Denotes x g := by
  unfold DenotesAll at h
  generalize Token.arguments ts = xs at h
  induction h with
  | nil => cases hg
  | cons hx _ ih =>
    rcases List.mem_cons.mp hg with rfl | hg
    · exact ⟨_, hx⟩
    · exact ih hg

end Scope

namespace Expr

variable {s : Scope} {v : Int} {ts rest : List Token}

/-- The rest of an expression ends in front of the comma that it leaves. -/
theorem continueFrom_split {acc : Int} (h : continueFrom s acc ts = (.ok v, rest)) :
    ∃ u, ts = u ++ rest ∧ (∀ t ∈ u, t.kind ≠ .comma) ∧ continueFrom s acc u = (.ok v, []) := by
  fun_induction continueFrom s acc ts with
  | case1 acc =>
    cases h
    exact ⟨[], rfl, by simp, rfl⟩
  | case2 acc t ts ht =>
    cases h
    exact ⟨[], rfl, by simp, rfl⟩
  | case3 => cases h
  | case4 => cases h
  | case5 => cases h
  | case6 acc t ht op w us hop x hx ih =>
    obtain ⟨u, rfl, hu, hc⟩ := ih h
    obtain ⟨y, hy, -⟩ := except_bind_ok hx
    have hw : w.kind ≠ .comma := Scope.kind_ne_comma_of_valueOf hy
    refine ⟨t :: w :: u, rfl, ?_, ?_⟩
    · intro t' ht'
      rcases List.mem_cons.mp ht' with rfl | ht'
      · exact ht
      · rcases List.mem_cons.mp ht' with rfl | ht'
        · exact hw
        · exact hu t' ht'
    · simp [continueFrom, ht, hop, hx, hc]

theorem immediate_split (h : immediate s ts = (.ok v, rest)) :
    ∃ u, ts = u ++ rest ∧ (∀ t ∈ u, t.kind ≠ .comma) ∧ s.IsValue u v := by
  rw [immediate_eq] at h
  cases ts with
  | nil => cases h
  | cons t ts =>
    unfold evaluate at h
    dsimp only at h
    rcases hw : s.valueOf t with f | w
    · rw [hw] at h
      cases h
    · rw [hw] at h
      obtain ⟨u, rfl, hu, hc⟩ := continueFrom_split h
      have ht : t.kind ≠ .comma := Scope.kind_ne_comma_of_valueOf hw
      refine ⟨t :: u, rfl, ?_, ?_⟩
      · intro t' ht'
        rcases List.mem_cons.mp ht' with rfl | ht'
        · exact ht
        · exact hu t' ht'
      · rw [Scope.IsValue, immediate_eq, evaluate]
        simp [hw, hc]

end Expr

theorem Scope.IsValue.comma_notMem {s : Scope} {x : List Token} {v : Int} (h : s.IsValue x v) :
    ∀ t ∈ x, t.kind ≠ .comma := by
  obtain ⟨u, hx, hu, -⟩ := Expr.immediate_split h
  rw [List.append_nil] at hx
  rwa [hx]

namespace Reader

variable {α β : Type} {s : Scope} {x : Reader α} {f : α → Argument} {ts rest : List Token}

/-- What the reader returns is what the tokens that it took denote. It takes no comma. -/
def Reads (s : Scope) (x : Reader α) (f : α → Argument) : Prop :=
  ∀ ts a rest, x ts = (.ok a, rest) →
    ∃ u g, ts = u ++ rest ∧ (∀ t ∈ u, t.kind ≠ .comma) ∧ s.Denotes u g ∧ g.cut = f a

theorem reads_operand (s : Scope) : Reads s (operand s) .ofOperand := by
  intro ts o rest h
  obtain ⟨u, rfl, hu⟩ := yields_operand s ts o rest h
  obtain ⟨t, rfl, hk, hr⟩ := Scope.isOperand_iff_spells.mp hu
  have hcomma : t.kind ≠ .comma := by
    rw [hk]
    split_ifs <;> simp
  obtain ⟨g, hg, hcut⟩ := Scope.denotes_of_registerNamed hk hr
  exact ⟨[t], g, rfl, by simpa using hcomma, hg, hcut⟩

theorem reads_register (s : Scope) : Reads s (register s) .ofRegister := by
  intro ts r rest h
  obtain ⟨u, rfl, t, rfl, hk, hr⟩ := yields_register s ts r rest h
  obtain ⟨g, hg, hcut⟩ := Scope.denotes_of_registerNamed (o := .direct r) hk hr
  exact ⟨[t], g, rfl, by simp [hk], hg, hcut⟩

theorem reads_immediate (s : Scope) : Reads s (Expr.immediate s) fun v => .value (v % 65536) := by
  intro ts v rest h
  obtain ⟨u, rfl, hu, hv⟩ := Expr.immediate_split h
  exact ⟨u, .value v, rfl, hu, hv, rfl⟩

theorem yields_immediate (s : Scope) : (Expr.immediate s).Yields s.IsValue := by
  intro ts v rest h
  obtain ⟨u, rfl, -, hv⟩ := Expr.immediate_split h
  exact ⟨u, rfl, hv⟩

theorem yields_bit (s : Scope) : (bit s).Yields s.IsBit := by
  intro ts b rest h
  obtain ⟨v, mid, himm, hbit⟩ := Stateful.bind_ok h
  obtain ⟨u, rfl, hv⟩ := yields_immediate s ts v mid himm
  split_ifs at hbit with hrange
  · obtain ⟨_, _, herr, -⟩ := Stateful.bind_ok hbit
    cases herr
  · obtain ⟨rfl, rfl⟩ := pure_ok hbit
    unfold maxBit at hrange
    exact ⟨u, rfl, v, hv, by omega, by omega, rfl⟩

theorem reads_bit (s : Scope) : Reads s (bit s) .ofBit := by
  intro ts b rest h
  obtain ⟨u, rfl, v, hv, hlow, hhigh, rfl⟩ := yields_bit s ts b rest h
  refine ⟨u, .value v, rfl, hv.comma_notMem, hv, ?_⟩
  rw [Argument.ofBit, Arith.toNat_uint8_ofInt, Argument.cut]
  congr 1
  omega

theorem sep_ok {k : Reader β} {b : β} (h : (do comma; k : Reader β) ts = (.ok b, rest)) :
    ∃ c mid, c.kind = .comma ∧ ts = c :: mid ∧ k mid = (.ok b, rest) := by
  obtain ⟨⟨⟩, mid, hcomma, hk⟩ := Stateful.bind_ok h
  obtain ⟨c, mid', hc, hpure⟩ := Stateful.bind_ok hcomma
  obtain ⟨hts, hkind⟩ := expect_ok hc
  obtain ⟨-, rfl⟩ := pure_ok hpure
  exact ⟨c, mid, by simpa using hkind, hts, hk⟩

/-- An operand in front of a comma is the first one of the statement. -/
theorem Reads.sep {k : α → Reader β} {b : β} (hx : Reads s x f)
    (h : (do let a ← x; comma; k a : Reader β) ts = (.ok b, rest)) :
    ∃ a mid g, k a mid = (.ok b, rest) ∧ g.cut = f a ∧
      ∀ args, List.Forall₂ s.Denotes (Token.operands mid) args →
        List.Forall₂ s.Denotes (Token.operands ts) (g :: args) := by
  obtain ⟨a, mid, ha, hsep⟩ := Stateful.bind_ok h
  obtain ⟨c, mid', hc, rfl, hk⟩ := sep_ok hsep
  obtain ⟨u, g, rfl, hu, hg, hcut⟩ := hx ts a _ ha
  refine ⟨a, mid', g, hk, hcut, ?_⟩
  intro args hargs
  rw [Token.operands_append_comma hu hc]
  exact .cons hg hargs

/-- An operand that takes up all tokens is the only one. -/
theorem Reads.last {k : α → β} {b : β} (hx : Reads s x f)
    (h : (do let a ← x; return k a : Reader β) ts = (.ok b, [])) :
    ∃ a g, b = k a ∧ g.cut = f a ∧ List.Forall₂ s.Denotes (Token.operands ts) [g] := by
  obtain ⟨a, mid, ha, h⟩ := Stateful.bind_ok h
  obtain ⟨rfl, rfl⟩ := pure_ok h
  obtain ⟨u, g, rfl, hu, hg, hcut⟩ := hx ts a _ ha
  refine ⟨a, g, rfl, hcut, ?_⟩
  rw [List.append_nil, Token.operands_of_notMem hu]
  exact .cons hg .nil

end Reader

/-- The statement with all operands written out: that without an operation adds register 0 to
itself, and a bit operation on one register names it twice. -/
def Mnemonic.spelledOut : Mnemonic → List Argument → Mnemonic × List Argument
  | .nop, _ => (.alu .add, [.register 0 false, .register 0 false, .register 0 false])
  | .bitFlag op, [t, b] => (.bitFlag op, [t, b, t])
  | m, args => (m, args)

namespace Instruction

/-- The mnemonic of an instruction and all its operands, as it holds them. -/
def parts : Instruction → Mnemonic × List Argument
  | alu op t l r => (.alu op, [.ofOperand t, .ofRegister l, .ofOperand r])
  | srl t s => (.srl, [.ofOperand t, .ofRegister s])
  | immediate op t v => (.immediate op, [.ofRegister t, .value v.toNat])
  | jalr t s => (.jalr, [.ofRegister t, .ofRegister s])
  | compare op t l r => (.compare op, [.ofRegister t, .ofRegister l, .ofRegister r])
  | bitTest op t b s => (.bitTest op, [.ofRegister t, .ofBit b, .ofRegister s])
  | bitFlag op t b s => (.bitFlag op, [.ofOperand t, .ofBit b, .ofOperand s])
  | nop => (.alu .add, [.ofRegister 0, .ofRegister 0, .ofRegister 0])

variable {s : Scope} {m : Mnemonic} {ts : List Token} {i : Instruction}

theorem readSource_ok {o o' : Operand} (h : readSource s o ts = (.ok o', [])) :
    (ts = [] ∧ o' = o) ∨ ∃ c mid, c.kind = .comma ∧ ts = c :: mid ∧
      Reader.operand s mid = (.ok o', []) := by
  cases ts with
  | nil =>
    cases h
    exact .inl ⟨rfl, rfl⟩
  | cons t ts =>
    have hsep : (do Reader.comma; Reader.operand s : Reader Operand) (t :: ts) = (.ok o', []) := h
    exact .inr (Reader.sep_ok hsep)

/-- The parts of an instruction are what its operands denote, in the form that the mnemonic asks
for. -/
theorem exists_denotesAll (h : read s m ts = (.ok i, [])) :
    ∃ args, s.DenotesAll ts args ∧ m.spelledOut (args.map .cut) = i.parts := by
  cases m with
  | alu op =>
    obtain ⟨t, mid, g, h, hg, hargs⟩ := (Reader.reads_operand s).sep h
    obtain ⟨l, mid', g', h, hg', hargs'⟩ := (Reader.reads_register s).sep h
    obtain ⟨r, g'', rfl, hg'', hlast⟩ := (Reader.reads_operand s).last h
    refine ⟨[g, g', g''], Scope.denotesAll_of_operands (hargs _ (hargs' _ hlast)), ?_⟩
    simp [Mnemonic.spelledOut, parts, hg, hg', hg'']
  | srl =>
    obtain ⟨t, mid, g, h, hg, hargs⟩ := (Reader.reads_operand s).sep h
    obtain ⟨r, g', rfl, hg', hlast⟩ := (Reader.reads_register s).last h
    refine ⟨[g, g'], Scope.denotesAll_of_operands (hargs _ hlast), ?_⟩
    simp [Mnemonic.spelledOut, parts, hg, hg']
  | immediate op =>
    obtain ⟨t, mid, g, h, hg, hargs⟩ := (Reader.reads_register s).sep h
    obtain ⟨v, g', rfl, hg', hlast⟩ := (Reader.reads_immediate s).last h
    refine ⟨[g, g'], Scope.denotesAll_of_operands (hargs _ hlast), ?_⟩
    simp [Mnemonic.spelledOut, parts, hg, hg', Arith.toNat_uint16_ofInt]
  | jalr =>
    obtain ⟨t, mid, g, h, hg, hargs⟩ := (Reader.reads_register s).sep h
    obtain ⟨r, g', rfl, hg', hlast⟩ := (Reader.reads_register s).last h
    refine ⟨[g, g'], Scope.denotesAll_of_operands (hargs _ hlast), ?_⟩
    simp [Mnemonic.spelledOut, parts, hg, hg']
  | compare op =>
    obtain ⟨t, mid, g, h, hg, hargs⟩ := (Reader.reads_register s).sep h
    obtain ⟨l, mid', g', h, hg', hargs'⟩ := (Reader.reads_register s).sep h
    obtain ⟨r, g'', rfl, hg'', hlast⟩ := (Reader.reads_register s).last h
    refine ⟨[g, g', g''], Scope.denotesAll_of_operands (hargs _ (hargs' _ hlast)), ?_⟩
    simp [Mnemonic.spelledOut, parts, hg, hg', hg'']
  | bitTest op =>
    obtain ⟨t, mid, g, h, hg, hargs⟩ := (Reader.reads_register s).sep h
    obtain ⟨b, mid', g', h, hg', hargs'⟩ := (Reader.reads_bit s).sep h
    obtain ⟨r, g'', rfl, hg'', hlast⟩ := (Reader.reads_register s).last h
    refine ⟨[g, g', g''], Scope.denotesAll_of_operands (hargs _ (hargs' _ hlast)), ?_⟩
    simp [Mnemonic.spelledOut, parts, hg, hg', hg'']
  | bitFlag op =>
    obtain ⟨t, mid, g, h, hg, hargs⟩ := (Reader.reads_operand s).sep h
    obtain ⟨b, mid', hb, h⟩ := Stateful.bind_ok h
    obtain ⟨r, mid'', hr, h⟩ := Stateful.bind_ok h
    obtain ⟨rfl, rfl⟩ := Reader.pure_ok h
    obtain ⟨u, g', rfl, hu, hg', hcut'⟩ := Reader.reads_bit s mid b mid' hb
    -- The source may be left out; it is the target then.
    rcases readSource_ok hr with ⟨rfl, rfl⟩ | ⟨c, mid, hc, rfl, hsource⟩
    · have hlast : List.Forall₂ s.Denotes (Token.operands (u ++ [])) [g'] := by
        rw [List.append_nil, Token.operands_of_notMem hu]
        exact .cons hg' .nil
      refine ⟨[g, g'], Scope.denotesAll_of_operands (hargs _ hlast), ?_⟩
      simp [Mnemonic.spelledOut, parts, hg, hcut']
    · obtain ⟨u', g'', rfl, hu', hg'', hcut''⟩ := Reader.reads_operand s mid r [] hsource
      have hlast : List.Forall₂ s.Denotes (Token.operands (u ++ c :: (u' ++ []))) [g', g''] := by
        rw [Token.operands_append_comma hu hc, List.append_nil, Token.operands_of_notMem hu']
        exact .cons hg' (.cons hg'' .nil)
      refine ⟨[g, g', g''], Scope.denotesAll_of_operands (hargs _ hlast), ?_⟩
      simp [Mnemonic.spelledOut, parts, hg, hcut', hcut'']
  | nop =>
    obtain ⟨rfl, rfl⟩ := Reader.pure_ok h
    exact ⟨[], .nil, rfl⟩

end Instruction
end BarrelAsm
