import BarrelAsm.Proofs.Location
import Mathlib.Logic.Relation

/-! What the lines of both passes add to the tables of symbols and registers, whether they fail or
not. -/
namespace BarrelAsm

theorem except_bind_fault {α β : Type} {x : Except Fault α} {g : α → Except Fault β} {f : Fault}
    (h : (x >>= g) = .error f) : x = .error f ∨ ∃ v, x = .ok v ∧ g v = .error f := by
  cases x with
  | error e =>
    cases h
    exact .inl rfl
  | ok v => exact .inr ⟨v, rfl, h⟩

theorem except_guard_fault {α : Type} {c : Prop} [Decidable c] {e f : Fault} {x : Except Fault α}
    (h : (if c then .error e else x) = .error f) : f = e ∨ x = .error f := by
  split_ifs at h
  · cases h
    exact .inl rfl
  · exact .inr h

namespace Assembly

variable {a b c : Assembly} {line : Line} {lines : List Line} {ts : List Token} {f : Fault}
  {constants : Constants}

/-- What every line keeps, whether it fails or not, holds at the end of a pass. -/
theorem runLines_preserves {P : Assembly → Prop} {step : Line → Assembly → Outcome}
    (hstep : ∀ line a, P a → P (step line a).1) (lines : List Line) (ha : P a) :
    P (runLines step lines a).1 := by
  induction lines generalizing a with
  | nil => exact ha
  | cons l ls ih =>
    have hl := hstep l a ha
    rw [runLines_cons]
    split
    · rename_i b hb
      rw [hb] at hl
      exact ih hl
    · rename_i b f hb
      rw [hb] at hl
      exact hl

theorem run_preserves {P : Assembly → Prop} (hstart : P (initial constants lines.length))
    (hfirst : ∀ line a, P a → P (firstPass line a).1)
    (hsecond : ∀ line a, P a → P (secondPass line a).1) (hrestart : ∀ a, P a → P a.restart)
    (hrecord : ∀ a e, P a → P (a.record e)) : P (run constants lines).1 := by
  have hone : P (runLines firstPass lines (initial constants lines.length)).1 :=
    runLines_preserves hfirst lines hstart
  rw [run_eq]
  split
  · rename_i one l f h
    rw [h] at hone
    exact hone
  · rename_i one h
    rw [h] at hone
    split
    · exact hone
    · have htwo : P (runLines secondPass lines one.restart).1 :=
        runLines_preserves hsecond lines (hrestart one hone)
      split
      · rename_i two l f h'
        rw [h'] at htwo
        exact htwo
      · rename_i two h'
        rw [h'] at htwo
        rw [finish_eq]
        split
        · exact htwo
        · exact hrecord two _ htwo

theorem declare_fault (h : a.declare line ts = (b, some f)) : b = a := by
  cases ts with
  | nil => cases h
  | cons t ts =>
    rw [declare_cons] at h
    split at h
    · exact (Outcome.update_fault (declareRegister_eq .. ▸ h)).1
    · exact (Outcome.update_fault (declareConst_eq .. ▸ h)).1
    · exact (Outcome.update_fault (declareData_eq .. ▸ h)).1
    · exact (Outcome.update_fault (openProcess_eq .. ▸ h)).1
    · exact (Outcome.update_fault (closeProcess_eq .. ▸ h)).1
    · cases h
    · cases h
    · cases h
      rfl

theorem defineLabel_fault {l : Text} (h : a.defineLabel l = (b, some f)) : b = a :=
  (Outcome.update_fault (a.defineLabel_eq l ▸ h)).1

/-- A statement leaves the tables alone, adds a symbol that is no register, or adds the next
register under a new name. -/
inductive Adds (a b : Assembly) : Prop where
  | nothing (hs : b.symbols = a.symbols) (hr : b.registers = a.registers)
      (hn : b.registerNext = a.registerNext)
  | symbol {name : Text} {sym : Symbol} (hk : sym.kind ≠ .register)
      (hs : a.symbols.insert name sym = .ok b.symbols) (hr : b.registers = a.registers)
      (hn : b.registerNext = a.registerNext)
  | register {name : Text} {value : Int} (hs : a.nameRegister name value = .ok b.symbols)
      (hr : b.registers = a.registers.push (UInt16.ofInt value))
      (hn : b.registerNext = a.registerNext + 1)

def Grows : Assembly → Assembly → Prop := Relation.ReflTransGen Adds

theorem Grows.trans (hab : Grows a b) (hbc : Grows b c) : Grows a c :=
  Relation.ReflTransGen.trans hab hbc

theorem Adds.grows (h : Adds a b) : Grows a b := Relation.ReflTransGen.single h

theorem grows_of_eq (hs : b.symbols = a.symbols) (hr : b.registers = a.registers)
    (hn : b.registerNext = a.registerNext) : Grows a b :=
  (Adds.nothing hs hr hn).grows

theorem grows_record (a : Assembly) (e : Event) : Grows a (a.record e) := grows_of_eq rfl rfl rfl

theorem grows_visit (a : Assembly) (line : Line) : Grows a (a.visit line) := grows_of_eq rfl rfl rfl

theorem Declared.adds (h : Declared a line ts b) : Adds a b := by
  cases h with
  | register _ _ hs => exact .register hs rfl rfl
  | const _ _ _ hs => exact .symbol (by simp) hs rfl rfl
  | data _ _ hs => exact .symbol (by simp) hs rfl rfl
  | _ => exact .nothing rfl rfl rfl

theorem defineLabels_grows (ls : List Text) (a : Assembly) : Grows a (defineLabels ls a).1 := by
  induction ls generalizing a with
  | nil => exact .refl
  | cons l ls ih =>
    rw [defineLabels_cons]
    rcases hl : a.defineLabel l with ⟨b, _ | f⟩
    · rw [defineLabel_eq] at hl
      obtain ⟨symbols, hs, rfl⟩ := Outcome.update_ok hl
      obtain ⟨-, hs⟩ := except_guard_ok hs
      have hadds : Adds a { a with symbols } := .symbol (by simp) hs rfl rfl
      exact hadds.grows.trans (ih _)
    · rw [defineLabel_fault hl]
      exact .refl

theorem declare_grows (a : Assembly) (line : Line) (ts : List Token) :
    Grows a (a.declare line ts).1 := by
  rcases h : a.declare line ts with ⟨b, _ | f⟩
  · exact (declare_ok h).adds.grows
  · rw [declare_fault h]
    exact .refl

theorem firstPass_grows (line : Line) (a : Assembly) : Grows a (firstPass line a).1 := by
  have hrec := grows_visit a line
  rw [firstPass_eq]
  split
  · exact hrec.trans (grows_of_eq rfl rfl rfl)
  · rename_i s _
    have hlabels := hrec.trans (defineLabels_grows s.labels (a.visit line))
    split
    · rename_i b hb
      rw [hb] at hlabels
      exact hlabels.trans (declare_grows b line s.body)
    · rename_i b f hb
      rw [hb] at hlabels
      exact hlabels

theorem scratch_grows (a : Assembly) (line : Line) : Grows a (a.scratch line).1 := by
  rw [scratch_eq]
  split
  · exact .refl
  · split
    · exact .refl
    · rename_i symbols hs
      have hadds : Adds a (a.addRegister symbols 0) := .register hs rfl rfl
      exact hadds.grows.trans (grows_record _ _)

theorem scratchFor_grows (a : Assembly) (line : Line) (p : Pseudo) :
    Grows a (a.scratchFor line p).1 := by
  rw [scratchFor_eq_ite]
  split_ifs
  · exact scratch_grows a line
  · exact .refl

/-- The scratch register stays when a statement fails behind its operands. -/
theorem expand_grows (a : Assembly) (line : Line) (op : PseudoOp) (ts : List Token) :
    Grows a (a.expand line op ts).1 := by
  rw [expand_eq]
  split
  · exact .refl
  · rename_i p rest _
    have hs := scratchFor_grows a line p
    split
    · rename_i b f hb
      rw [hb] at hs
      exact hs
    · rename_i b r hb
      rw [hb] at hs
      refine hs.trans ?_
      rcases (Reader.finish rest).1 with f | _
      · exact .refl
      · exact grows_of_eq rfl rfl rfl

theorem update_grows {α : Type} {found : Except Fault α} {change : Assembly → α → Assembly}
    (h : ∀ x, Adds a (change a x)) : Grows a (Outcome.update a found change).1 := by
  cases found with
  | error f => exact .refl
  | ok x => exact (h x).grows

theorem generate_grows (a : Assembly) (line : Line) (ts : List Token) :
    Grows a (a.generate line ts).1 := by
  cases ts with
  | nil =>
    rw [generate_nil]
    exact grows_of_eq rfl rfl rfl
  | cons t ts =>
    rw [generate_cons]
    split
    · exact .refl
    · exact .refl
    · exact .refl
    · rw [reopenProcess_eq]
      exact update_grows fun _ => .nothing rfl rfl rfl
    · rw [recloseProcess_eq]
      exact update_grows fun _ => .nothing rfl rfl rfl
    · split
      · rw [encode_eq]
        exact update_grows fun _ => .nothing rfl rfl rfl
      · exact .refl
    · split
      · exact expand_grows a line _ ts
      · exact .refl
    · exact .refl

theorem secondPass_grows (line : Line) (a : Assembly) : Grows a (secondPass line a).1 := by
  have hrec := grows_record a (.line 2 line)
  rw [secondPass_eq]
  split
  · exact hrec
  · exact hrec.trans (generate_grows _ line _)

theorem runLines_grows {step : Line → Assembly → Outcome}
    (hstep : ∀ line a, Grows a (step line a).1) (lines : List Line) (a : Assembly) :
    Grows a (runLines step lines a).1 :=
  runLines_preserves (fun line b hb => hb.trans (hstep line b)) lines .refl

theorem runLines_grows_ok {step : Line → Assembly → Outcome}
    (hstep : ∀ line a, Grows a (step line a).1) (h : runLines step lines a = (b, none)) :
    Grows a b := by
  have hg := runLines_grows hstep lines a
  rw [h] at hg
  exact hg

theorem runLines_append {step : Line → Assembly → Outcome} {xs : List Line} (ys : List Line)
    (h : runLines step xs a = (b, none)) :
    runLines step (xs ++ ys) a = runLines step ys b := by
  induction xs generalizing a with
  | nil =>
    cases h
    rfl
  | cons x xs ih =>
    obtain ⟨c, hc, hb⟩ := runLines_cons_ok.mp h
    rw [List.cons_append, runLines_cons, hc]
    exact ih hb

theorem runLines_fault {step : Line → Assembly → Outcome} {pre lines : List Line}
    (hp : pre ++ [line] <+: lines) (h : runLines step pre a = (b, none))
    (hf : step line b = (c, some f)) : runLines step lines a = (c, some (line, f)) := by
  obtain ⟨post, rfl⟩ := hp
  rw [List.append_assoc, runLines_append _ h, List.singleton_append, runLines_cons, hf]

/-- A fault stops the run at the first line that has one. -/
theorem runLines_fault_at {step : Line → Assembly → Outcome}
    (h : runLines step lines a = (c, some (line, f))) :
    ∃ pre b, pre ++ [line] <+: lines ∧ runLines step pre a = (b, none) ∧
      step line b = (c, some f) := by
  induction lines generalizing a with
  | nil => cases h
  | cons k ks ih =>
    rw [runLines_cons] at h
    rcases hk : step k a with ⟨b, _ | g⟩
    · rw [hk] at h
      obtain ⟨pre, e, hp, hrun, hstep⟩ := ih h
      refine ⟨k :: pre, e, ?_, runLines_cons_ok.mpr ⟨b, hk, hrun⟩, hstep⟩
      rw [List.cons_append]
      exact (List.prefix_cons_inj k).mpr hp
    · rw [hk] at h
      cases h
      exact ⟨[], a, ⟨ks, rfl⟩, rfl, hk⟩

theorem grows_restart (a : Assembly) : Grows a a.restart := grows_of_eq rfl rfl rfl

/-- The first pass is about to take the line behind `pre`. -/
def AtFirst (constants : Constants) (lines pre : List Line) (a : Assembly) : Prop :=
  pre <+: lines ∧ runLines firstPass pre (initial constants lines.length) = (a, none)

/-- The second pass is about to take the line behind `pre`. -/
def AtSecond (constants : Constants) (lines pre : List Line) (a : Assembly) : Prop :=
  pre <+: lines ∧ ∃ one, runLines firstPass lines (initial constants lines.length) = (one, none) ∧
    checkProcessCount one.processes = .ok () ∧ runLines secondPass pre one.restart = (a, none)

theorem AtFirst.grows {pre : List Line} (h : AtFirst constants lines pre a) :
    Grows (initial constants lines.length) a := runLines_grows_ok firstPass_grows h.2

theorem AtSecond.grows {pre : List Line} (h : AtSecond constants lines pre a) :
    Grows (initial constants lines.length) a := by
  obtain ⟨-, one, hone, -, htwo⟩ := h
  have hfirst : AtFirst constants lines lines one := ⟨List.prefix_refl _, hone⟩
  have hsecond := runLines_grows_ok secondPass_grows htwo
  exact (hfirst.grows.trans (grows_restart one)).trans hsecond

theorem Adds.entries_grow (h : Adds a b) : a.symbols.entries <+: b.symbols.entries := by
  cases h with
  | nothing hs => exact hs ▸ List.prefix_refl _
  | symbol _ hs =>
    rw [SymbolTable.entries_insert hs]
    exact List.prefix_append _ _
  | register hs =>
    rw [SymbolTable.entries_insert (nameRegister_ok hs).2]
    exact List.prefix_append _ _

theorem Grows.entries_grow (h : Grows a b) : a.symbols.entries <+: b.symbols.entries := by
  induction h with
  | refl => exact List.prefix_refl _
  | tail _ hs ih => exact ih.trans hs.entries_grow

theorem Grows.get? {name : Text} {sym : Symbol} (h : Grows a b)
    (hg : a.symbols.get? name = some sym) : b.symbols.get? name = some sym :=
  SymbolTable.get?_of_prefix h.entries_grow hg

end Assembly
end BarrelAsm
