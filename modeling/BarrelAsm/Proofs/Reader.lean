import BarrelAsm.Assembly.Statement
import BarrelAsm.Instruction.Read
import BarrelAsm.Pseudo.Read
import Mathlib.Tactic.SplitIfs

/-! What a reader has consumed when it succeeds. -/
namespace BarrelAsm

/-- Code with a state, which is kept as it is when the code stops at a fault. -/
abbrev Stateful (σ : Type) := ExceptT Fault (StateM σ)

namespace Stateful

variable {σ α β : Type} {s t : σ}

theorem bind_apply (x : Stateful σ α) (f : α → Stateful σ β) (s : σ) :
    (x >>= f) s = match x s with
      | (.ok a, mid) => f a mid
      | (.error e, mid) => (.error e, mid) := by
  simp only [bind, ExceptT.bind, ExceptT.mk, ExceptT.bindCont, StateT.bind]
  rcases x s with ⟨_ | _, mid⟩ <;> rfl

theorem bind_ok {x : Stateful σ α} {f : α → Stateful σ β} {b : β}
    (h : (x >>= f) s = (.ok b, t)) : ∃ a mid, x s = (.ok a, mid) ∧ f a mid = (.ok b, t) := by
  rw [bind_apply] at h
  rcases hx : x s with ⟨e | a, mid⟩ <;> rw [hx] at h
  · cases h
  · exact ⟨a, mid, rfl, h⟩

end Stateful

namespace Reader

variable {α β : Type} {ts rest : List Token}

theorem pure_ok {a b : α} (h : (pure a : Reader α) ts = (.ok b, rest)) : b = a ∧ rest = ts := by
  cases h
  exact ⟨rfl, rfl⟩

theorem lift_ok {x : Except Fault α} {a : α} (h : (liftM x : Reader α) ts = (.ok a, rest)) :
    x = .ok a ∧ rest = ts := by
  cases h
  exact ⟨rfl, rfl⟩

theorem expect_ok {kinds : List TokenKind} {t : Token} (h : expect kinds ts = (.ok t, rest)) :
    ts = t :: rest ∧ t.kind ∈ kinds := by
  cases ts with
  | nil => cases h
  | cons u us =>
    obtain ⟨hu, rfl⟩ := Prod.mk.inj h
    unfold Token.require at hu
    split_ifs at hu with hk
    cases hu
    exact ⟨rfl, hk⟩

theorem finish_ok (h : finish ts = (.ok (), rest)) : ts = [] ∧ rest = [] := by
  cases ts with
  | nil => exact ⟨rfl, (Prod.mk.inj h).2.symm⟩
  | cons t us => cases h

/-- What a reader returns has a property, whatever the tokens are. -/
def Ensures (x : Reader α) (P : α → Prop) : Prop := ∀ ts a rest, x ts = (.ok a, rest) → P a

theorem Ensures.pure {P : α → Prop} {a : α} (h : P a) : Ensures (pure a) P := by
  intro ts b rest hb
  rw [(pure_ok hb).1]
  exact h

theorem Ensures.bind {x : Reader α} {f : α → Reader β} {P : β → Prop}
    (h : ∀ a, Ensures (f a) P) : Ensures (x >>= f) P := by
  intro ts b rest hb
  obtain ⟨a, mid, -, hf⟩ := Stateful.bind_ok hb
  exact h a mid b rest hf

/-- What a reader leaves is the end of what it was given, also after a failure. -/
def Advances (x : Reader α) : Prop := ∀ ts, (x ts).2 <:+ ts

theorem Advances.suffix {x : Reader α} (hx : Advances x) {r : Except Fault α}
    (h : x ts = (r, rest)) : rest <:+ ts := by
  have hsuffix := hx ts
  rwa [h] at hsuffix

theorem Advances.pure (a : α) : Advances (pure a) := List.suffix_refl

theorem Advances.lift (x : Except Fault α) : Advances (liftM x : Reader α) := List.suffix_refl

theorem Advances.bind {x : Reader α} {f : α → Reader β} (hx : Advances x)
    (hf : ∀ a, Advances (f a)) : Advances (x >>= f) := by
  intro ts
  rw [Stateful.bind_apply]
  rcases h : x ts with ⟨e | a, mid⟩
  · exact hx.suffix h
  · exact (hf a mid).trans (hx.suffix h)

theorem Advances.expect (kinds : List TokenKind) : Advances (expect kinds) := by
  intro ts
  cases ts with
  | nil => exact List.suffix_refl []
  | cons t rest => exact List.suffix_cons t rest

theorem Advances.ahead (kinds : List TokenKind) : Advances (ahead kinds) := by
  intro ts
  unfold Reader.ahead
  split
  · exact List.suffix_refl ts
  · rename_i h
    exact (Advances.expect kinds).suffix h

theorem Advances.more : Advances more := List.suffix_refl

theorem Advances.finish : Advances finish := by
  intro ts
  cases ts <;> exact List.suffix_refl _

theorem Advances.comma : Advances comma := .bind (.expect _) fun _ => .pure _

theorem Advances.register (s : Scope) : Advances (register s) := .bind (.expect _) fun _ => .lift _

end Reader

namespace Cursor

variable {α β : Type} {x : Reader α} {c : Cursor} {r : Except Fault α} {pre rest : List Token}

/-- Read at a cursor, which passes the tokens that the reader takes. -/
def read (x : Reader α) (c : Cursor) : Except Fault α × Cursor :=
  match x c.rest with
  | (r, rest) => (r, ⟨(c.rest.take (c.rest.length - rest.length)).reverse ++ c.passed, rest⟩)

theorem read_of_append (hc : c.rest = pre ++ rest) (h : x c.rest = (r, rest)) :
    c.read x = (r, ⟨pre.reverse ++ c.passed, rest⟩) := by
  rw [read, h]
  dsimp only
  rw [hc, List.length_append, Nat.add_sub_cancel, List.take_left]

/-- No token gets lost when a reader moves the cursor. -/
theorem toList_read (hx : x.Advances) (c : Cursor) : (c.read x).2.toList = c.toList := by
  rcases h : x c.rest with ⟨r, rest⟩
  obtain ⟨pre, hc⟩ := hx.suffix h
  rw [read_of_append hc.symm h]
  simp [toList, ← hc]

/-- The second reader starts where the first has left the cursor. -/
theorem read_bind {f : α → Reader β} (hx : x.Advances) (hf : ∀ a, (f a).Advances) (c : Cursor) :
    c.read (x >>= f) = match c.read x with
      | (.ok a, d) => d.read (f a)
      | (.error e, d) => (.error e, d) := by
  rcases h : x c.rest with ⟨e | a, mid⟩
  all_goals
    obtain ⟨pre, hc⟩ := hx.suffix h
    rw [read_of_append hc.symm h]
  · refine read_of_append hc.symm ?_
    rw [Stateful.bind_apply, h]
  · rcases hfa : f a mid with ⟨r, rest⟩
    obtain ⟨pre', rfl⟩ := (hf a).suffix hfa
    have hread : c.read (x >>= f) = (r, ⟨(pre ++ pre').reverse ++ c.passed, rest⟩) := by
      refine read_of_append (by rw [← hc, List.append_assoc]) ?_
      rw [Stateful.bind_apply, h]
      exact hfa
    rw [hread]
    dsimp only
    rw [read_of_append rfl hfa, List.reverse_append, List.append_assoc]

theorem read_expect (kinds : List TokenKind) (c : Cursor) :
    c.read (Reader.expect kinds) = c.expect kinds := by
  obtain ⟨passed, _ | ⟨t, rest⟩⟩ := c
  · rfl
  · exact read_of_append (show _ = [t] ++ rest from rfl) rfl

/-- To look ahead is to pass a token and to go back. -/
theorem read_ahead (kinds : List TokenKind) (c : Cursor) :
    c.read (Reader.ahead kinds) = match c.expect kinds with
      | (.ok _, d) => (.ok (), d.back)
      | (.error e, d) => (.error e, d) := by
  rw [← read_expect]
  rcases h : Reader.expect kinds c.rest with ⟨e | t, rest⟩
  · obtain ⟨pre, hc⟩ := (Reader.Advances.expect kinds).suffix h
    rw [read_of_append hc.symm h]
    exact read_of_append hc.symm (by rw [Reader.ahead, h])
  · obtain ⟨hc, -⟩ := Reader.expect_ok h
    have hpassed : c.rest = [t] ++ rest := hc
    have hahead : Reader.ahead kinds c.rest = (.ok (), c.rest) := by rw [Reader.ahead, h]
    rw [read_of_append hpassed h, read_of_append (List.nil_append _).symm hahead, hc]
    rfl

/-- The token passed is the one that was in front, and the way back leads to it. -/
theorem expect_ok {kinds : List TokenKind} {t : Token} {d : Cursor}
    (h : c.expect kinds = (.ok t, d)) : c.peek? = some t ∧ t.kind ∈ kinds ∧ d.back = c := by
  obtain ⟨passed, _ | ⟨u, rest⟩⟩ := c
  · cases h
  · obtain ⟨hu, rfl⟩ := Prod.mk.inj h
    obtain ⟨hfront, hk⟩ := Reader.expect_ok (Prod.ext hu rfl)
    obtain ⟨rfl, -⟩ := List.cons.inj hfront
    exact ⟨rfl, hk, rfl⟩

theorem read_more (c : Cursor) : c.read Reader.more = (.ok c.more, c) :=
  read_of_append (List.nil_append _).symm rfl

theorem read_finish (c : Cursor) : c.read Reader.finish = (c.finish, c) := by
  obtain ⟨passed, _ | ⟨t, rest⟩⟩ := c
  · rfl
  · exact read_of_append (List.nil_append _).symm rfl

end Cursor

namespace Expr

theorem continueFrom_suffix (s : Scope) (acc : Int) (ts : List Token) :
    (continueFrom s acc ts).2 <:+ ts := by
  fun_induction continueFrom s acc ts with
  | case1 => exact List.suffix_refl _
  | case2 => exact List.suffix_refl _
  | case3 => exact List.suffix_cons _ _
  | case4 => exact List.nil_suffix
  | case5 acc t _ op u us => exact (List.suffix_cons u us).trans (List.suffix_cons t (u :: us))
  | case6 acc t _ op u us _ _ _ ih =>
    exact ih.trans ((List.suffix_cons u us).trans (List.suffix_cons t (u :: us)))

theorem advances_evaluate (s : Scope) : Reader.Advances (evaluate s) := by
  intro ts
  unfold evaluate
  split
  · exact List.suffix_refl []
  · rename_i t us
    split
    · exact List.suffix_cons t us
    · exact (continueFrom_suffix s _ us).trans (List.suffix_cons t us)

theorem advances_immediate (s : Scope) : Reader.Advances (immediate s) :=
  .bind (.ahead _) fun _ => advances_evaluate s

/-- At a cursor, an expression that has to be there passes its first token and goes back. -/
theorem read_immediate (s : Scope) (c : Cursor) :
    c.read (immediate s) = match c.expect Scope.valueKinds with
      | (.ok _, d) => d.back.read (evaluate s)
      | (.error e, d) => (.error e, d) := by
  rw [immediate, Cursor.read_bind (.ahead _) fun _ => advances_evaluate s, Cursor.read_ahead]
  rcases c.expect Scope.valueKinds with ⟨e | t, d⟩ <;> rfl

end Expr

theorem Reader.Advances.bit (s : Scope) : Advances (bit s) := by
  refine .bind (Expr.advances_immediate s) fun v => ?_
  split_ifs
  · exact .bind (.lift (.error _)) fun _ => .pure _
  · exact .pure _

/-- The operands read belong to the operation they are read for. -/
theorem Pseudo.op_of_read {s : Scope} {op : PseudoOp} {p : Pseudo} {ts rest : List Token}
    (h : Pseudo.read s op ts = (.ok p, rest)) : p.op = op := by
  revert h
  suffices he : Reader.Ensures (Pseudo.read s op) (fun p => p.op = op) from he ts p rest
  cases op <;> repeat first | exact .pure rfl | refine .bind fun _ => ?_

end BarrelAsm
