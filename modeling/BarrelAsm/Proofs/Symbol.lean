import BarrelAsm.Symbol
import Mathlib.Data.List.Basic
import Mathlib.Tactic.SplitIfs

/-! What inserting a symbol does to a table. -/
namespace BarrelAsm.SymbolTable

variable {t t' : SymbolTable} {name : Text} {sym : Symbol}

theorem get?_of_insert (h : t.insert name sym = .ok t') : t.get? name = none := by
  unfold insert at h
  split_ifs at h with hn
  simpa using hn

theorem get?_insert (h : t.insert name sym = .ok t') (m : Text) :
    t'.get? m = if m = name then some sym else t.get? m := by
  have hn := get?_of_insert h
  unfold insert at h
  split_ifs at h
  cases h
  unfold get? at hn ⊢
  rw [List.lookup_append]
  split_ifs with hm
  · subst m
    simp [hn]
  · have hb : (m == name) = false := by simpa using hm
    simp [List.lookup_cons, hb]

theorem get?_insert_iff (h : t.insert name sym = .ok t') {m : Text} {s : Symbol} :
    t'.get? m = some s ↔ t.get? m = some s ∨ (m = name ∧ s = sym) := by
  have hn := get?_of_insert h
  rw [get?_insert h]
  split_ifs with hm
  · subst m
    simp [hn, eq_comm]
  · simp [hm]

/-- The table has this symbol, which is of this kind, under this name. -/
def Has (t : SymbolTable) (kind : SymbolKind) (name : Text) (sym : Symbol) : Prop :=
  t.get? name = some sym ∧ sym.kind = kind

theorem has_insert (h : t.insert name sym = .ok t') {m : Text} {s : Symbol} :
    t'.Has sym.kind m s ↔ t.Has sym.kind m s ∨ (m = name ∧ s = sym) := by
  unfold Has
  rw [get?_insert_iff h]
  constructor
  · rintro ⟨hm | hm, hk⟩
    · exact .inl ⟨hm, hk⟩
    · exact .inr hm
  · rintro (⟨hm, hk⟩ | ⟨rfl, rfl⟩)
    · exact ⟨.inl hm, hk⟩
    · exact ⟨.inr ⟨rfl, rfl⟩, rfl⟩

theorem has_insert_other (h : t.insert name sym = .ok t') {kind : SymbolKind}
    (hk : sym.kind ≠ kind) {m : Text} {s : Symbol} : t'.Has kind m s ↔ t.Has kind m s := by
  unfold Has
  rw [get?_insert_iff h]
  constructor
  · rintro ⟨hm | ⟨-, rfl⟩, hs⟩
    · exact ⟨hm, hs⟩
    · exact absurd hs hk
  · rintro ⟨hm, hs⟩
    exact ⟨.inl hm, hs⟩

theorem isSome_get?_insert (h : t.insert name sym = .ok t') (m : Text) :
    (t'.get? m).isSome ↔ (t.get? m).isSome ∨ m = name := by
  rw [get?_insert h]
  split_ifs with hm <;> simp [hm]

theorem entries_insert (h : t.insert name sym = .ok t') :
    t'.entries = t.entries ++ [(name, sym)] := by
  unfold insert at h
  split_ifs at h
  cases h
  rfl

theorem lookup_ok {scope : Text} (h : t.lookup scope name = .ok sym) :
    t.get? (scope ++ name) = some sym ∨ t.get? name = some sym := by
  unfold lookup at h
  split at h
  · rename_i sym' hget
    cases h
    rcases Option.or_eq_some_iff.mp hget with hget | ⟨-, hget⟩
    · exact .inl hget
    · exact .inr hget
  · cases h

/-- Symbols that come later hide none that are there. -/
theorem get?_of_prefix (hp : t.entries <+: t'.entries) (h : t.get? name = some sym) :
    t'.get? name = some sym := by
  obtain ⟨new, hnew⟩ := hp
  unfold get? at h ⊢
  rw [← hnew, List.lookup_append, h, Option.some_or]

/-- The table has a label of this name at this location. -/
def LabelAt (t : SymbolTable) (name : Text) (location : Int) : Prop :=
  ∃ sym, t.get? name = some sym ∧ sym.kind = .label ∧ sym.location = location

theorem labelAt_insert_label (h : t.insert name sym = .ok t') (hk : sym.kind = .label) (m : Text)
    (location : Int) :
    t'.LabelAt m location ↔ t.LabelAt m location ∨ (m = name ∧ location = sym.location) := by
  have hn := get?_of_insert h
  unfold LabelAt
  rw [get?_insert h]
  split_ifs with hm
  · subst m
    constructor
    · rintro ⟨s, hs, -, rfl⟩
      exact .inr ⟨rfl, by rw [Option.some.inj hs]⟩
    · rintro (⟨s, hs, -⟩ | ⟨-, rfl⟩)
      · simp [hn] at hs
      · exact ⟨sym, rfl, hk, rfl⟩
  · simp [hm]

theorem labelAt_insert_other (h : t.insert name sym = .ok t') (hk : sym.kind ≠ .label) (m : Text)
    (location : Int) : t'.LabelAt m location ↔ t.LabelAt m location := by
  have hn := get?_of_insert h
  unfold LabelAt
  rw [get?_insert h]
  split_ifs with hm
  · subst m
    constructor
    · rintro ⟨s, hs, hl, -⟩
      rw [← Option.some.inj hs] at hl
      exact absurd hl hk
    · rintro ⟨s, hs, -⟩
      simp [hn] at hs
  · exact Iff.rfl

end BarrelAsm.SymbolTable
