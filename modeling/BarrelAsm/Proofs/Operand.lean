import BarrelAsm.Proofs.Names
import BarrelAsm.Proofs.Step

/-! Operands as they are written: tokens between commas, and what they name. -/
namespace BarrelAsm

namespace Token

/-- The operands of a statement, which commas separate. -/
def operands (ts : List Token) : List (List Token) := ts.splitOnP fun t => t.kind = .comma

theorem operands_cons_of_comma {t : Token} (ht : t.kind = .comma) (ts : List Token) :
    operands (t :: ts) = [] :: operands ts := by
  simp [operands, List.splitOnP_cons_eq_if_modifyHead, ht]

theorem operands_cons {t : Token} (ht : t.kind ≠ .comma) (ts : List Token) :
    operands (t :: ts) = (operands ts).modifyHead (t :: ·) := by
  simp [operands, List.splitOnP_cons_eq_if_modifyHead, ht]

theorem operands_eq_singleton {ts x : List Token} (h : operands ts = [x]) : ts = x := by
  induction ts generalizing x with
  | nil => simpa [operands] using h
  | cons t ts ih =>
    by_cases ht : t.kind = .comma
    · rw [operands_cons_of_comma ht] at h
      have hnil : operands ts = [] := (List.cons.inj h).2
      exact absurd hnil (List.splitOnP_ne_nil _ _)
    · rw [operands_cons ht] at h
      rcases hts : operands ts with _ | ⟨y, ys⟩
      · simp [hts] at h
      · rw [hts, List.modifyHead_cons] at h
        obtain ⟨rfl, rfl⟩ := List.cons.inj h
        rw [ih hts]

/-- In front of the second operand stands a comma. -/
theorem operands_eq_cons {ts x y : List Token} {xs : List (List Token)}
    (h : operands ts = x :: y :: xs) :
    ∃ c rest, c.kind = .comma ∧ ts = x ++ c :: rest ∧ operands rest = y :: xs := by
  induction ts generalizing x with
  | nil => simp [operands] at h
  | cons t ts ih =>
    by_cases ht : t.kind = .comma
    · rw [operands_cons_of_comma ht] at h
      obtain ⟨rfl, hts⟩ := List.cons.inj h
      exact ⟨t, ts, ht, rfl, hts⟩
    · rw [operands_cons ht] at h
      rcases hts : operands ts with _ | ⟨z, zs⟩
      · simp [hts] at h
      · rw [hts, List.modifyHead_cons] at h
        obtain ⟨rfl, rfl⟩ := List.cons.inj h
        obtain ⟨c, rest, hc, rfl, hrest⟩ := ih hts
        exact ⟨c, rest, hc, rfl, hrest⟩

theorem subset_of_mem_operands {ts x : List Token} (h : x ∈ operands ts) : x ⊆ ts := by
  induction ts generalizing x with
  | nil =>
    have hx : x = [] := by simpa [operands] using h
    simp [hx]
  | cons t ts ih =>
    by_cases ht : t.kind = .comma
    · rw [operands_cons_of_comma ht] at h
      rcases List.mem_cons.mp h with rfl | h
      · exact List.nil_subset _
      · exact List.subset_cons_of_subset t (ih h)
    · rw [operands_cons ht] at h
      rcases hts : operands ts with _ | ⟨y, ys⟩
      · simp [hts] at h
      · rw [hts, List.modifyHead_cons] at h
        rcases List.mem_cons.mp h with rfl | h
        · exact List.cons_subset_cons t (ih (by simp [hts]))
        · exact List.subset_cons_of_subset t (ih (by simp [hts, h]))

/-- A comma as it is written. -/
def comma : Token := ⟨.comma, ",", 0⟩

/-- A statement with these operands. -/
def join : List (List Token) → List Token
  | [] => []
  | [x] => x
  | x :: y :: xs => x ++ comma :: join (y :: xs)

end Token

namespace Reader

variable {α β : Type} {x : Reader α} {u ts rest : List Token} {a : α}

theorem bind_of_ok {f : α → Reader β} (h : x ts = (.ok a, rest)) : (x >>= f) ts = f a rest := by
  rw [Stateful.bind_apply, h]

theorem expect_of_mem {kinds : List TokenKind} {t : Token} (h : t.kind ∈ kinds) (ts : List Token) :
    expect kinds (t :: ts) = (.ok t, ts) := by
  simp [expect, Token.require, h]

theorem comma_of_kind {t : Token} (h : t.kind = .comma) (ts : List Token) :
    comma (t :: ts) = (.ok (), ts) :=
  bind_of_ok (expect_of_mem (by simp [h]) ts)

/-- At the end of the line and in front of a comma, the reader takes these tokens for `a`. -/
def Takes (x : Reader α) (u : List Token) (a : α) : Prop :=
  ∀ rest : List Token, (∀ t ∈ rest.head?, t.kind = .comma) → x (u ++ rest) = (.ok a, rest)

theorem Takes.at_end (h : x.Takes u a) : x u = (.ok a, []) := by
  simpa using h [] (by simp)

theorem Takes.sep (h : x.Takes u a) {c : Token} (hc : c.kind = .comma) {f : α → Reader β} :
    (do let a ← x; comma; f a : Reader β) (u ++ c :: ts) = f a ts := by
  have hx : x (u ++ c :: ts) = (.ok a, c :: ts) := h (c :: ts) (by simpa using hc)
  rw [bind_of_ok hx]
  exact bind_of_ok (comma_of_kind hc ts)

theorem Takes.last (h : x.Takes u a) (g : α → β) :
    (do let a ← x; return g a : Reader β) u = (.ok (g a), []) :=
  bind_of_ok h.at_end

theorem Takes.map (h : x.Takes u a) (g : α → β) :
    (do let a ← x; return g a : Reader β).Takes u (g a) :=
  fun rest hr => bind_of_ok (h rest hr)

/-- What the reader returns is what `X` says about the tokens that it took. -/
def Yields (x : Reader α) (X : List Token → α → Prop) : Prop :=
  ∀ ts a rest, x ts = (.ok a, rest) → ∃ u, ts = u ++ rest ∧ X u a

end Reader

/-- The operand is one token of this kind, whose text stands for `a`. -/
def Token.Spells {α : Type} (kind : TokenKind) (find : Text → Except Fault α) (x : List Token)
    (a : α) : Prop :=
  ∃ t, x = [t] ∧ t.kind = kind ∧ find t.text = .ok a

namespace Scope

/-- The operand is the name of a register. -/
def IsRegister (s : Scope) : List Token → Register → Prop :=
  Token.Spells .identifier s.registerNamed

/-- The operand is the name of a register in parentheses. -/
def IsIndirection (s : Scope) : List Token → Register → Prop :=
  Token.Spells .indirection s.registerNamed

/-- The operand is a register, which may be indirect. -/
def IsOperand (s : Scope) (x : List Token) (o : Operand) : Prop :=
  if o.indirect then s.IsIndirection x o.register else s.IsRegister x o.register

/-- The operand is the name of a label. -/
def IsLabel (s : Scope) : List Token → Int → Prop := Token.Spells .identifier s.labelNamed

/-- The operand is an expression with this value. -/
def IsValue (s : Scope) (x : List Token) (v : Int) : Prop := Expr.immediate s x = (.ok v, [])

/-- The operand is an expression whose value is the number of a bit. -/
def IsBit (s : Scope) (x : List Token) (b : UInt8) : Prop :=
  ∃ v, s.IsValue x v ∧ 0 ≤ v ∧ v ≤ 15 ∧ b = UInt8.ofInt v

end Scope

namespace Token.Spells

variable {α : Type} {kind : TokenKind} {find find' : Text → Except Fault α} {x : List Token} {a : α}

theorem takes {kinds : List TokenKind} (h : Spells kind find x a) (hk : kind ∈ kinds) :
    (do let t ← Reader.expect kinds; find t.text : Reader α).Takes x a := by
  obtain ⟨t, rfl, rfl, ha⟩ := h
  intro rest _
  rw [List.singleton_append, Reader.bind_of_ok (Reader.expect_of_mem hk rest), ha]
  rfl

theorem congr {s s' : Scope} (h : Spells kind find x a)
    (hk : kind = .identifier ∨ kind = .indirection) (hs : s.Agree s' x)
    (hf : ∀ n, s.lookup n = s'.lookup n → find n = find' n) : Spells kind find' x a := by
  obtain ⟨t, rfl, rfl, ha⟩ := h
  have hname : t.text ∈ t.names := by
    rcases hk with hk | hk
    · simp [Token.names_of_identifier hk]
    · simp [Token.names_of_indirection hk]
  refine ⟨t, rfl, rfl, ?_⟩
  rw [← hf _ (hs t (by simp) _ hname)]
  exact ha

end Token.Spells

namespace Expr

variable {s : Scope} {x : List Token} {v : Int} {c : Token}

/-- An expression that has to be there fails as an expression does where there is none. -/
theorem immediate_eq (s : Scope) : immediate s = evaluate s := by
  funext ts
  rw [immediate, Stateful.bind_apply]
  cases ts with
  | nil => rfl
  | cons t ts =>
    rcases hr : t.require Scope.valueKinds with f | u
    · have hv : s.valueOf t = .error f := by
        unfold Scope.valueOf
        rw [hr]
        rfl
      simp [Reader.ahead, Reader.expect, hr, evaluate, hv]
    · simp [Reader.ahead, Reader.expect, hr]

theorem continueFrom_append {acc : Int} (h : continueFrom s acc x = (.ok v, []))
    (rest : List Token) (hr : ∀ t ∈ rest.head?, t.kind = .comma) :
    continueFrom s acc (x ++ rest) = (.ok v, rest) := by
  fun_induction continueFrom s acc x with
  | case1 acc =>
    cases h
    cases rest with
    | nil => rfl
    | cons t ts =>
      have ht : t.kind = .comma := hr t (by simp)
      rw [List.nil_append]
      unfold continueFrom
      simp [ht]
  | case2 => cases h
  | case3 => cases h
  | case4 => cases h
  | case5 => cases h
  | case6 acc t ht op u us hop w hw ih =>
    simp [continueFrom, ht, hop, hw, ih h]

end Expr

namespace Scope

variable {s s' : Scope} {x : List Token} {r : Register} {o : Operand} {l v : Int} {b : UInt8}

theorem IsRegister.takes (h : s.IsRegister x r) : (Reader.register s).Takes x r :=
  Token.Spells.takes h (by simp)

theorem IsIndirection.takes (h : s.IsIndirection x r) : (Reader.indirection s).Takes x r :=
  Token.Spells.takes h (by simp)

theorem IsLabel.takes (h : s.IsLabel x l) : (Reader.target s).Takes x (UInt16.ofInt l) :=
  (Token.Spells.takes h (by simp)).map UInt16.ofInt

theorem IsOperand.takes (h : s.IsOperand x o) : (Reader.operand s).Takes x o := by
  obtain ⟨r, i⟩ := o
  cases i with
  | false =>
    obtain ⟨t, rfl, hk, hr⟩ := h
    intro rest _
    rw [List.singleton_append, Reader.operand,
      Reader.bind_of_ok (Reader.expect_of_mem (by simp [hk]) rest), hr, hk]
    rfl
  | true =>
    obtain ⟨t, rfl, hk, hr⟩ := h
    intro rest _
    rw [List.singleton_append, Reader.operand,
      Reader.bind_of_ok (Reader.expect_of_mem (by simp [hk]) rest), hr, hk]
    rfl

theorem IsValue.takes (h : s.IsValue x v) : (Expr.immediate s).Takes x v := by
  intro rest hr
  unfold IsValue at h
  rw [Expr.immediate_eq] at h ⊢
  cases x with
  | nil => cases h
  | cons t ts =>
    rw [List.cons_append]
    unfold Expr.evaluate at h ⊢
    dsimp only at h ⊢
    rcases hv : s.valueOf t with f | w
    · rw [hv] at h
      cases h
    · rw [hv] at h
      exact Expr.continueFrom_append h rest hr

/-- As a value a label counts with its location. -/
theorem IsLabel.isValue (h : s.IsLabel x l) : s.IsValue x l := by
  obtain ⟨t, rfl, hk, hl⟩ := h
  obtain ⟨sym, hsym, hloc⟩ := except_bind_ok hl
  split_ifs at hloc with hkind
  have hvalue : s.valueOf t = .ok sym.location := by
    unfold valueOf
    simp [Token.require, valueKinds, hk, hsym, symbolValue, hkind, bind, Except.bind]
  cases hloc
  rw [IsValue, Expr.immediate_eq, Expr.evaluate]
  simp [hvalue, Expr.continueFrom]

theorem IsBit.takes (h : s.IsBit x b) : (Reader.bit s).Takes x b := by
  obtain ⟨v, hv, hlow, hhigh, rfl⟩ := h
  intro rest hr
  have hrange : ¬(v < 0 ∨ Reader.maxBit < v) := by
    unfold Reader.maxBit
    omega
  rw [Reader.bit, Reader.bind_of_ok (hv.takes rest hr), if_neg hrange]
  rfl

section Agreement

variable (hs : s.Agree s' x)
include hs

theorem IsRegister.congr (h : s.IsRegister x r) : s'.IsRegister x r :=
  Token.Spells.congr h (.inl rfl) hs fun _ => registerNamed_congr

theorem IsIndirection.congr (h : s.IsIndirection x r) : s'.IsIndirection x r :=
  Token.Spells.congr h (.inr rfl) hs fun _ => registerNamed_congr

theorem IsLabel.congr (h : s.IsLabel x l) : s'.IsLabel x l :=
  Token.Spells.congr h (.inl rfl) hs fun _ => labelNamed_congr

theorem IsOperand.congr (h : s.IsOperand x o) : s'.IsOperand x o := by
  unfold IsOperand at h ⊢
  split_ifs at h ⊢
  · exact h.congr hs
  · exact h.congr hs

theorem IsBit.congr (h : s.IsBit x b) : s'.IsBit x b := by
  obtain ⟨v, hv, hrange⟩ := h
  refine ⟨v, ?_, hrange⟩
  exact (Reader.Alike.immediate.eq x hs).symm.trans hv

end Agreement

/-- An operand is told by the kind of its token. -/
theorem isOperand_iff_spells : s.IsOperand x o ↔
    Token.Spells (if o.indirect then .indirection else .identifier) s.registerNamed x
      o.register := by
  unfold IsOperand
  split_ifs <;> rfl

theorem IsRegister.isOperand (h : s.IsRegister x r) : s.IsOperand x (.direct r) := h

theorem IsIndirection.isOperand (h : s.IsIndirection x r) : s.IsOperand x ⟨r, true⟩ := h

end Scope

namespace Reader

theorem yields_operand (s : Scope) : (operand s).Yields s.IsOperand := by
  intro ts o rest h
  obtain ⟨t, mid, ht, hnamed⟩ := Stateful.bind_ok h
  obtain ⟨rfl, hk⟩ := expect_ok ht
  obtain ⟨r, mid', hlift, hpure⟩ := Stateful.bind_ok hnamed
  obtain ⟨hr, rfl⟩ := lift_ok hlift
  obtain ⟨rfl, rfl⟩ := pure_ok hpure
  have hkind : t.kind = .identifier ∨ t.kind = .indirection := by simpa using hk
  refine ⟨[t], rfl, Scope.isOperand_iff_spells.mpr ⟨t, rfl, ?_, hr⟩⟩
  rcases hkind with hk | hk <;> simp [hk]

theorem yields_register (s : Scope) : (register s).Yields s.IsRegister := by
  intro ts r rest h
  obtain ⟨t, mid, ht, hlift⟩ := Stateful.bind_ok h
  obtain ⟨rfl, hk⟩ := expect_ok ht
  obtain ⟨hr, rfl⟩ := lift_ok hlift
  exact ⟨[t], rfl, t, rfl, by simpa using hk, hr⟩

end Reader

namespace Instruction

variable {s : Scope} {t l u : List Token}

theorem readAll_of_read {m : Mnemonic} {ts : List Token} {i : Instruction}
    (h : read s m ts = (.ok i, [])) : readAll s m ts = (.ok i, []) :=
  Reader.bind_of_ok h

theorem readAll_alu (op : AluOp) {o o' : Operand} {r : Register} (ht : s.IsOperand t o)
    (hl : s.IsRegister l r) (hu : s.IsOperand u o') :
    readAll s (.alu op) (Token.join [t, l, u]) = (.ok (.alu op o r o'), []) :=
  readAll_of_read <|
    (ht.takes.sep rfl).trans ((hl.takes.sep rfl).trans (hu.takes.last _))

theorem readAll_immediate (op : ImmediateOp) {r : Register} {v : Int} (ht : s.IsRegister t r)
    (hu : s.IsValue u v) :
    readAll s (.immediate op) (Token.join [t, u]) = (.ok (.immediate op r (UInt16.ofInt v)), []) :=
  readAll_of_read <| (ht.takes.sep rfl).trans (hu.takes.last _)

theorem readAll_jalr {r r' : Register} (ht : s.IsRegister t r) (hu : s.IsRegister u r') :
    readAll s .jalr (Token.join [t, u]) = (.ok (.jalr r r'), []) :=
  readAll_of_read <| (ht.takes.sep rfl).trans (hu.takes.last _)

theorem readAll_compare (op : CompareOp) {r r' r'' : Register} (ht : s.IsRegister t r)
    (hl : s.IsRegister l r') (hu : s.IsRegister u r'') :
    readAll s (.compare op) (Token.join [t, l, u]) = (.ok (.compare op r r' r''), []) :=
  readAll_of_read <| (ht.takes.sep rfl).trans ((hl.takes.sep rfl).trans (hu.takes.last _))

theorem readAll_bitTest (op : BitTestOp) {r r' : Register} {b : UInt8} (ht : s.IsRegister t r)
    (hl : s.IsBit l b) (hu : s.IsRegister u r') :
    readAll s (.bitTest op) (Token.join [t, l, u]) = (.ok (.bitTest op r b r'), []) :=
  readAll_of_read <| (ht.takes.sep rfl).trans ((hl.takes.sep rfl).trans (hu.takes.last _))

end Instruction
end BarrelAsm
