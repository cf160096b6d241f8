import BarrelAsm.Proofs.Registry
import BarrelAsm.Proofs.Symbol
import BarrelAsm.Scope
import Mathlib.Data.List.Induction

/-! Two levels of names in one flat table. Behind the name of its process and a dot, a name without
a dot is found again, so that no process sees what another one declares. -/
namespace BarrelAsm

/-- A name as it is used in a process, or outside of all processes. -/
structure ScopedName where
  process : Option Text
  name : Text
deriving DecidableEq, Repr

namespace ScopedName

/-- The name under which the table of symbols has it. -/
def key (n : ScopedName) : Text := Scope.qualifier n.process ++ n.name

/-- The same name outside of all processes. -/
def global (n : ScopedName) : ScopedName := ⟨none, n.name⟩

/-- The name has no dot; that of its process may have one. -/
def Plain (n : ScopedName) : Prop := (46 : UInt8) ∉ n.name

instance (n : ScopedName) : Decidable n.Plain := inferInstanceAs (Decidable (¬_))

/-- A plain name in a process that can be declared. -/
structure Proper (n : ScopedName) : Prop where
  plain : n.Plain
  process : ∀ p, n.process = some p → ProcessName.isValid p = true

theorem key_some (p name : Text) : key ⟨some p, name⟩ = p ++ 46 :: name := by
  simp [key, Scope.qualifier]

theorem key_inj {m n : ScopedName} (hm : m.Plain) (hn : n.Plain) (h : m.key = n.key) : m = n := by
  obtain ⟨p, m⟩ := m
  obtain ⟨q, n⟩ := n
  cases p with
  | none =>
    cases q with
    | none =>
      have hmn : m = n := h
      rw [hmn]
    | some q =>
      have hdot : m = q ++ 46 :: n := by simpa [key, Scope.qualifier] using h
      exact absurd (by simp [hdot]) hm
  | some p =>
    cases q with
    | none =>
      have hdot : p ++ 46 :: m = n := by simpa [key, Scope.qualifier] using h
      exact absurd (by simp [← hdot]) hn
    | some q =>
      rw [key_some, key_some] at h
      obtain ⟨rfl, rfl⟩ := Text.append_sep_inj_right hm hn h
      rfl

end ScopedName

/-- What a table of symbols can be asked for. -/
inductive Request where
  | insert (name : ScopedName) (sym : Symbol)
  | lookup (name : ScopedName)
deriving DecidableEq, Repr

namespace Request

def name : Request → ScopedName
  | insert n _ => n
  | lookup n => n

/-- The symbol that a request declares for a name. -/
def declares? (n : ScopedName) : Request → Option Symbol
  | insert m sym => if m = n then some sym else none
  | lookup _ => none

/-- Whether the request is made in this process or outside of all processes. -/
def visibleIn (process : Option Text) (r : Request) : Bool :=
  r.name.process = none ∨ r.name.process = process

end Request

/-- The table after a request, and the answer: a symbol to a lookup, nothing to an insert. -/
def SymbolTable.serve (t : SymbolTable) : Request → SymbolTable × Except Fault (Option Symbol)
  | .insert n sym =>
    match t.insert n.key sym with
    | .ok t' => (t', .ok none)
    | .error f => (t, .error f)
  | .lookup n => (t, (t.lookup (Scope.qualifier n.process) n.name).map some)

/-- The symbols of each process, and those outside of all processes. -/
def Environment := ScopedName → Option Symbol

namespace Environment

def empty : Environment := fun _ => none

def declare (e : Environment) (n : ScopedName) (sym : Symbol) : Environment :=
  fun m => if m = n then some sym else e m

/-- The symbol of a name in its process, else outside of all processes. -/
def find? (e : Environment) (n : ScopedName) : Option Symbol := (e n).or (e n.global)

/-- The environment after a request, and the answer. -/
def serve (e : Environment) : Request → Environment × Except Fault (Option Symbol)
  | .insert n sym =>
    if (e n).isSome then (e, .error (.duplicateSymbol n.key)) else (e.declare n sym, .ok none)
  | .lookup n =>
    match e.find? n with
    | some sym => (e, .ok (some sym))
    | none => (e, .error (.undeclared n.name))

/-- The environment after requests. -/
def after (rs : List Request) : Environment := rs.foldl (fun e r => (e.serve r).1) empty

theorem after_concat (rs : List Request) (r : Request) :
    after (rs ++ [r]) = ((after rs).serve r).1 := by
  simp [after]

/-- A name has the symbol that it was first declared with. -/
theorem after_eq (rs : List Request) (n : ScopedName) :
    after rs n = rs.findSome? (Request.declares? n) := by
  induction rs using List.reverseRecOn with
  | nil => rfl
  | append_singleton rs r ih =>
    rw [after_concat, List.findSome?_append, ← ih]
    cases r with
    | lookup m =>
      simp only [serve]
      split <;> simp [Request.declares?]
    | insert m sym =>
      by_cases hmn : m = n
      · subst m
        by_cases hn : (after rs n).isSome
        · obtain ⟨old, hold⟩ := Option.isSome_iff_exists.mp hn
          simp [serve, hold]
        · have hnone : after rs n = none := Option.not_isSome_iff_eq_none.mp hn
          simp [serve, hnone, declare, Request.declares?]
      · have hnm : n ≠ m := Ne.symm hmn
        by_cases hm : (after rs m).isSome
        · simp [serve, hm, Request.declares?, hmn]
        · simp [serve, hm, Request.declares?, hmn, hnm, declare]

/-- What is declared in other processes does not matter. -/
theorem after_filter (p : Option Text) (rs : List Request) {n : ScopedName}
    (hn : n.process = none ∨ n.process = p) :
    after (rs.filter (Request.visibleIn p)) n = after rs n := by
  rw [after_eq, after_eq]
  induction rs with
  | nil => rfl
  | cons r rs ih =>
    by_cases hv : r.visibleIn p
    · rw [List.filter_cons_of_pos hv, List.findSome?_cons, List.findSome?_cons, ih]
    · have hother : r.declares? n = none := by
        cases r with
        | lookup m => rfl
        | insert m sym =>
          have hmn : m ≠ n := by
            rintro rfl
            exact hv (decide_eq_true hn)
          simp [Request.declares?, hmn]
      rw [List.filter_cons_of_neg hv, List.findSome?_cons, hother, ih]

theorem serve_congr {e e' : Environment} {r : Request} (h : e r.name = e' r.name)
    (hg : e r.name.global = e' r.name.global) : (e.serve r).2 = (e'.serve r).2 := by
  cases r with
  | insert n sym =>
    simp only [Request.name] at h
    simp only [serve, h]
    split_ifs <;> rfl
  | lookup n =>
    simp only [Request.name] at h hg
    simp only [serve, find?, h, hg]
    split <;> rfl

end Environment

namespace SymbolTable

variable {t : SymbolTable} {e : Environment} {r : Request}

/-- The table after requests. -/
def after (rs : List Request) : SymbolTable := rs.foldl (fun t r => (t.serve r).1) {}

theorem after_concat (rs : List Request) (r : Request) :
    after (rs ++ [r]) = ((after rs).serve r).1 := by
  simp [after]

/-- The table has the symbols of the environment under their keys. -/
def Represents (t : SymbolTable) (e : Environment) : Prop :=
  ∀ n : ScopedName, n.Plain → t.get? n.key = e n

theorem Represents.lookup (h : t.Represents e) {n : ScopedName} (hn : n.Plain) :
    t.lookup (Scope.qualifier n.process) n.name =
      match e.find? n with
      | some sym => .ok sym
      | none => .error (.undeclared n.name) := by
  have hlocal : t.get? (Scope.qualifier n.process ++ n.name) = e n := h n hn
  have hglobal : t.get? n.name = e n.global := h n.global hn
  rw [SymbolTable.lookup, hlocal, hglobal]
  rfl

/-- Table and environment give the same answer, and stay together. -/
theorem Represents.serve (h : t.Represents e) (hr : r.name.Plain) :
    (t.serve r).2 = (e.serve r).2 ∧ (t.serve r).1.Represents (e.serve r).1 := by
  cases r with
  | lookup n =>
    have hlookup := h.lookup hr
    simp only [SymbolTable.serve, Environment.serve]
    simp only [Request.name] at hlookup
    rw [hlookup]
    split
    · exact ⟨rfl, h⟩
    · exact ⟨rfl, h⟩
  | insert n sym =>
    have hget : t.get? n.key = e n := h n hr
    simp only [SymbolTable.serve, Environment.serve]
    by_cases hsome : (e n).isSome
    · have hins : t.insert n.key sym = .error (.duplicateSymbol n.key) := by
        simp [SymbolTable.insert, hget, hsome]
      rw [hins, if_pos hsome]
      exact ⟨rfl, h⟩
    · have hins : t.insert n.key sym = .ok ⟨t.entries ++ [(n.key, sym)]⟩ := by
        simp [SymbolTable.insert, hget, hsome]
      rw [hins, if_neg hsome]
      refine ⟨rfl, ?_⟩
      intro m hm
      rw [get?_insert hins]
      by_cases hmn : m = n
      · simp [hmn, Environment.declare]
      · have hkey : m.key ≠ n.key := fun he => hmn (ScopedName.key_inj hm hr he)
        simp [hkey, hmn, Environment.declare, h m hm]

theorem represents_after {rs : List Request} (h : ∀ r ∈ rs, r.name.Plain) :
    (after rs).Represents (Environment.after rs) := by
  induction rs using List.reverseRecOn with
  | nil =>
    intro n _
    rfl
  | append_singleton rs r ih =>
    obtain ⟨hrs, hr⟩ := List.forall_mem_append.mp h
    rw [after_concat, Environment.after_concat]
    exact ((ih hrs).serve (hr r (by simp))).2

theorem serve_fault {f : Fault} (h : (t.serve r).2 = .error f) : (t.serve r).1 = t := by
  cases r with
  | lookup n => rfl
  | insert n sym =>
    simp only [SymbolTable.serve] at h ⊢
    rcases hins : t.insert n.key sym with g | t'
    · rfl
    · rw [hins] at h
      cases h

/-- The answer to a request depends on what was declared in its process and outside of all
processes. -/
theorem serve_of_visible {p : Option Text} {rs rs' : List Request}
    (hrs : ∀ r ∈ rs, r.name.Plain) (hrs' : ∀ r ∈ rs', r.name.Plain)
    (hsame : rs.filter (Request.visibleIn p) = rs'.filter (Request.visibleIn p))
    (hr : r.name.Plain) (hp : r.name.process = p) :
    ((after rs).serve r).2 = ((after rs').serve r).2 := by
  have hseen : ∀ n : ScopedName, n.process = none ∨ n.process = p →
      Environment.after rs n = Environment.after rs' n := by
    intro n hn
    rw [← Environment.after_filter p rs hn, hsame, Environment.after_filter p rs' hn]
  rw [((represents_after hrs).serve hr).1, ((represents_after hrs').serve hr).1]
  exact Environment.serve_congr (hseen _ (.inr hp)) (hseen _ (.inl rfl))

/-- A table whose keys are those of scoped names is that of their declarations. -/
theorem represents_of_entries {es : List (ScopedName × Symbol)} (hes : ∀ e ∈ es, e.1.Plain)
    (h : t.entries = es.map fun e => (e.1.key, e.2)) :
    t.Represents (Environment.after (es.map fun e => .insert e.1 e.2)) := by
  intro n hn
  rw [Environment.after_eq, get?, h]
  clear h
  induction es with
  | nil => rfl
  | cons e es ih =>
    obtain ⟨he, hes⟩ := List.forall_mem_cons.mp hes
    by_cases hne : e.1 = n
    · simp [Request.declares?, hne]
    · have hkey : (n.key == e.1.key) = false := by
        simpa using fun hk => hne (ScopedName.key_inj hn he hk).symm
      simp [List.lookup_cons, hkey, Request.declares?, hne, ih hes]

theorem insert_fault {key : Text} {sym : Symbol} {f : Fault} (h : t.insert key sym = .error f) :
    f = .duplicateSymbol key ∧ (t.get? key).isSome := by
  unfold insert at h
  split_ifs at h with hsome
  cases h
  exact ⟨rfl, hsome⟩

end SymbolTable

end BarrelAsm
