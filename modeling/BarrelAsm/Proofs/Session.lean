import BarrelAsm.Proofs.Layout
import BarrelAsm.Proofs.Symbol

/-! What an assembler was used for does not matter to the next assembly, except for the constants:
after any calls a source is assembled as by a new assembler that is given the last value of each
constant, in any order. -/
namespace BarrelAsm

theorem lookup_cons_ite {β : Type} (m n : Text) (v : β) (es : List (Text × β)) :
    List.lookup m ((n, v) :: es) = if m = n then some v else es.lookup m := by
  rw [List.lookup_cons]
  by_cases h : m = n
  · simp [h]
  · simp [h, beq_false_of_ne h]

/-- Where the names are distinct, an entry is found under its name. -/
theorem lookup_eq_some_iff_mem {β : Type} {es : List (Text × β)} (h : (es.map Prod.fst).Nodup)
    {n : Text} {v : β} : es.lookup n = some v ↔ (n, v) ∈ es := by
  constructor
  · intro hn
    obtain ⟨l₁, l₂, rfl, -⟩ := List.lookup_eq_some_iff.mp hn
    simp
  · intro he
    induction es with
    | nil => cases he
    | cons e es ih =>
      obtain ⟨m, w⟩ := e
      obtain ⟨hm, hes⟩ := List.nodup_cons.mp h
      rw [lookup_cons_ite]
      rcases List.mem_cons.mp he with he | he
      · cases he
        rw [if_pos rfl]
      · have hne : n ≠ m := fun heq => hm (List.mem_map.mpr ⟨(n, v), he, heq⟩)
        rw [if_neg hne, ih hes he]

namespace Constants

/-- Define constants one after the other. -/
def setAll (c : Constants) (ds : List (Text × Int)) : Constants :=
  ds.foldl (fun c d => c.set d.1 d.2) c

variable {c d : Constants} {name : Text}

theorem lookup_replace_self (es : List (Text × Int)) (name : Text) (value : Int) :
    (es.map fun e => if e.1 = name then (name, value) else e).lookup name =
      (es.lookup name).map fun _ => value := by
  induction es with
  | nil => rfl
  | cons e es ih =>
    obtain ⟨n, v⟩ := e
    rw [List.map_cons, lookup_cons_ite name n v]
    by_cases hn : n = name
    · rw [if_pos hn, if_pos hn.symm, lookup_cons_ite, if_pos rfl]
      rfl
    · rw [if_neg hn, if_neg (Ne.symm hn), lookup_cons_ite, if_neg (Ne.symm hn), ih]

theorem lookup_replace_of_ne (es : List (Text × Int)) {name m : Text} (value : Int) (h : m ≠ name) :
    (es.map fun e => if e.1 = name then (name, value) else e).lookup m = es.lookup m := by
  induction es with
  | nil => rfl
  | cons e es ih =>
    obtain ⟨n, v⟩ := e
    rw [List.map_cons, lookup_cons_ite m n v]
    by_cases hn : n = name
    · subst n
      rw [if_pos rfl, lookup_cons_ite, if_neg h, if_neg h, ih]
    · rw [if_neg hn, lookup_cons_ite, ih]

theorem get?_set (c : Constants) (name : Text) (value : Int) (m : Text) :
    (c.set name value).get? m = if m = name then some value else c.get? m := by
  by_cases hs : (c.get? name).isSome
  · obtain ⟨v, hv⟩ := Option.isSome_iff_exists.mp hs
    rw [set, dif_pos hs]
    unfold get? at hv ⊢
    by_cases hm : m = name
    · subst m
      rw [lookup_replace_self, hv, if_pos rfl]
      rfl
    · rw [lookup_replace_of_ne _ _ hm, if_neg hm]
  · have hnone : c.get? name = none := by simpa using hs
    rw [set, dif_neg hs]
    unfold get? at hnone ⊢
    rw [List.lookup_append, lookup_cons_ite]
    by_cases hm : m = name
    · subst m
      rw [hnone, if_pos rfl, if_pos rfl]
      rfl
    · rw [if_neg hm, if_neg hm]
      exact Option.or_none

/-- The last value counts. -/
theorem get?_setAll (c : Constants) (ds : List (Text × Int)) (m : Text) :
    (c.setAll ds).get? m = (ds.reverse.lookup m).or (c.get? m) := by
  induction ds generalizing c with
  | nil => simp [setAll]
  | cons e ds ih =>
    obtain ⟨name, value⟩ := e
    change ((c.set name value).setAll ds).get? m = _
    rw [ih, get?_set, List.reverse_cons, List.lookup_append, lookup_cons_ite, Option.or_assoc]
    split_ifs <;> rfl

theorem entries_perm (h : ∀ name, c.get? name = d.get? name) : c.entries.Perm d.entries := by
  rw [List.perm_ext_iff_of_nodup (.of_map _ c.distinct) (.of_map _ d.distinct)]
  rintro ⟨name, value⟩
  rw [← lookup_eq_some_iff_mem c.distinct, ← lookup_eq_some_iff_mem d.distinct]
  exact Eq.congr_left (h name)

theorem pairwise_mergeSort_name (es : List (Text × Int)) :
    (es.mergeSort fun a b => decide (a.1 ≤ b.1)).Pairwise fun a b => decide (a.1 ≤ b.1) := by
  apply List.pairwise_mergeSort
  · intro x y z hxy hyz
    exact decide_eq_true (List.le_trans (of_decide_eq_true hxy) (of_decide_eq_true hyz))
  · intro x y
    simpa using List.le_total x.1 y.1

/-- The symbols do not depend on the order in which constants were defined. -/
theorem symbols_congr (h : ∀ name, c.get? name = d.get? name) : c.symbols = d.symbols := by
  have hperm := entries_perm h
  have hsorted : (c.entries.mergeSort fun a b => decide (a.1 ≤ b.1)) =
      d.entries.mergeSort fun a b => decide (a.1 ≤ b.1) := by
    apply List.Perm.eq_of_pairwise _ (pairwise_mergeSort_name _) (pairwise_mergeSort_name _)
    · exact (List.mergeSort_perm _ _).trans (hperm.trans (List.mergeSort_perm _ _).symm)
    · -- Names are distinct, so that entries with the same name are the same.
      intro x y hx hy hxy hyx
      have hname : x.1 = y.1 :=
        List.le_antisymm (of_decide_eq_true hxy) (of_decide_eq_true hyx)
      have hx' := hperm.mem_iff.mp (List.mem_mergeSort.mp hx)
      exact List.inj_on_of_nodup_map d.distinct hx' (List.mem_mergeSort.mp hy) hname
  unfold symbols
  rw [hsorted]

/-- The value of a formula, if it has one that is an integer of 64 bits. -/
def valueOf? {ε : Type} (interpret : Interpreter ε) (c : Constants) (formula : Text) : Option Int :=
  match interpret c (resultName ++ 61 :: formula ++ [10]) with
  | .ok values =>
    (values resultName).filter fun i => -0x8000000000000000 ≤ i ∧ i < 0x8000000000000000
  | .error _ => none

theorem defineBy_toOption {ε : Type} (interpret : Interpreter ε) (c : Constants)
    (name formula : Text) :
    (c.defineBy interpret name formula).toOption =
      if Text.isName name then (c.valueOf? interpret formula).map (c.set name) else none := by
  unfold defineBy valueOf?
  cases Text.isName name with
  | false => rfl
  | true =>
    dsimp only
    generalize interpret c (resultName ++ 61 :: formula ++ [10]) = found
    rcases found with e | values
    · rfl
    · dsimp only
      cases values resultName with
      | none => rfl
      | some i =>
        dsimp only
        rw [Option.filter_some]
        by_cases hi : i < -0x8000000000000000 ∨ 0x8000000000000000 ≤ i
        · have hout : ¬(-0x8000000000000000 ≤ i ∧ i < 0x8000000000000000) := by omega
          rw [decide_eq_false hout, if_pos hi]
          rfl
        · have hin : -0x8000000000000000 ≤ i ∧ i < 0x8000000000000000 := by omega
          rw [decide_eq_true hin, if_neg hi]
          rfl

end Constants

namespace Assembly

/-- The constants count by their symbols only. -/
theorem run_congr {c d : Constants} (h : c.symbols = d.symbols) (lines : List Line) :
    run c lines = run d lines := by
  rw [run_eq, run_eq]
  unfold initial
  rw [h]

end Assembly

namespace Session

variable {ε : Type} (interpret : Interpreter ε)

/-- The constant that a call defines; a formula is one over the constants so far. -/
def defines? (s : Session) : Call → Option (Text × Int)
  | .predefine name value => some (name, value)
  | .predefineFormula name formula =>
    if Text.isName name then (s.constants.valueOf? interpret formula).map fun value => (name, value)
    else none
  | _ => none

/-- The constants that calls define, in order. -/
def definitions (s : Session) : List Call → List (Text × Int)
  | [] => []
  | call :: calls =>
    (s.defines? interpret call).toList ++ definitions (s.perform interpret call) calls

/-- The last value that calls give to a name. -/
def lastValue? (s : Session) (calls : List Call) (name : Text) : Option Int :=
  (s.definitions interpret calls).reverse.lookup name

theorem constants_assemble (s : Session) (source : Text) :
    (s.assemble source).1.constants = s.constants := by
  unfold assemble Assembler.assemble
  cases Text.lines? source <;> rfl

theorem constants_predefineFormula (s : Session) (name formula : Text) :
    (s.perform interpret (.predefineFormula name formula)).constants =
      (s.constants.defineBy interpret name formula).toOption.getD s.constants := by
  unfold perform
  dsimp only
  cases s.constants.defineBy interpret name formula <;> rfl

/-- A call changes the constants by what it defines. -/
theorem constants_perform (s : Session) (call : Call) :
    (s.perform interpret call).constants =
      s.constants.setAll (s.defines? interpret call).toList := by
  cases call with
  | predefine name value => rfl
  | assemble source => exact constants_assemble s source
  | setVerbose on => rfl
  | insert name sym =>
    unfold perform
    dsimp only
    cases s.assembler.symbols.insert name sym <;> rfl
  | register name location =>
    unfold perform
    dsimp only
    cases s.assembler.processes.register name location <;> rfl
  | predefineFormula name formula =>
    rw [constants_predefineFormula, Constants.defineBy_toOption, defines?]
    split_ifs
    · cases s.constants.valueOf? interpret formula <;> rfl
    · rfl

theorem constants_performAll (s : Session) (calls : List Call) :
    (s.performAll interpret calls).constants =
      s.constants.setAll (s.definitions interpret calls) := by
  induction calls generalizing s with
  | nil => rfl
  | cons call calls ih =>
    change ((s.perform interpret call).performAll interpret calls).constants = _
    rw [ih, constants_perform, definitions, Constants.setAll, Constants.setAll, Constants.setAll,
      List.foldl_append]

theorem definitions_map_predefine (s : Session) (ds : List (Text × Int)) :
    s.definitions interpret (ds.map fun d => .predefine d.1 d.2) = ds := by
  induction ds generalizing s with
  | nil => rfl
  | cons d ds ih =>
    rw [List.map_cons, definitions, ih]
    rfl

theorem get?_performAll (verbose : Bool) (calls : List Call) (name : Text) :
    (({ verbose } : Session).performAll interpret calls).constants.get? name =
      lastValue? interpret { verbose } calls name := by
  rw [constants_performAll, Constants.get?_setAll]
  exact Option.or_none

/-- What comes of a source depends on the symbols of the constants only. -/
theorem assemble_congr {s t : Session} (h : s.constants.symbols = t.constants.symbols)
    {source : Text} {texts : List Text} (hlines : Text.lines? source = some texts) :
    (s.assemble source).2.1 = (t.assemble source).2.1 ∧
      (s.assemble source).1.assembler.toAssembly = (t.assemble source).1.assembler.toAssembly := by
  have hrun : Assembly.run s.assembler.constants (Line.ofTexts texts) =
      Assembly.run t.assembler.constants (Line.ofTexts texts) := Assembly.run_congr h _
  unfold assemble
  rw [s.assembler.assemble_of_lines hlines, t.assembler.assemble_of_lines hlines, hrun]
  exact ⟨rfl, rfl⟩

end Session

/-- A session assembles a source as a new one does that was given the last value of each constant:
with the same program or the same error, and with the same symbols, the same processes and the same
rest of its state at the end. No constant is refused when the session is reset. -/
theorem history_irrelevant {ε : Type} (interpret : Interpreter ε) {calls : List Call}
    {ds : List (Text × Int)} {source : Text} {texts : List Text} (verbose : Bool)
    (hnames : (ds.map Prod.fst).Nodup)
    (hlast : ∀ name value,
      (name, value) ∈ ds ↔ Session.lastValue? interpret {} calls name = some value)
    (hlines : Text.lines? source = some texts) :
    let used := ({} : Session).performAll interpret calls
    let fresh := ({ verbose } : Session).performAll interpret (ds.map fun d => .predefine d.1 d.2)
    (used.assemble source).2.1 = (fresh.assemble source).2.1 ∧
      (used.assemble source).1.assembler.toAssembly =
        (fresh.assemble source).1.assembler.toAssembly ∧
      ∀ n, (Id.run ((Handler.reset used.constants n).outcome used.assembler.toAssembly)).2 =
        none := by
  intro used fresh
  have hget : ∀ name, used.constants.get? name = fresh.constants.get? name := by
    intro name
    have hreverse : (ds.reverse.map Prod.fst).Nodup := by
      rw [List.map_reverse]
      exact List.nodup_reverse.mpr hnames
    rw [Session.get?_performAll interpret false, Session.get?_performAll interpret verbose]
    refine Option.ext fun value => ?_
    rw [← hlast, Session.lastValue?, Session.definitions_map_predefine,
      lookup_eq_some_iff_mem hreverse, List.mem_reverse]
  obtain ⟨hresult, hstate⟩ := Session.assemble_congr (Constants.symbols_congr hget) hlines
  refine ⟨hresult, hstate, fun n => ?_⟩
  rw [Assembly.reset_outcome]

namespace Session

/-- An interpreter whose formulas are names of constants. -/
def namesOnly : Interpreter Unit := fun c text =>
  match c.get? ((text.drop 3).dropLast) with
  | some value => .ok fun name => if name = Constants.resultName then some value else none
  | none => .error ()

/-- Calls of every kind, with a constant that is defined twice and an assembly that fails. -/
def sample : List Call :=
  [.predefine "width" 4, .predefineFormula "depth" "width", .predefineFormula "depth" "height",
    .assemble "process p\nadd q, q, q\n", .insert "depth" ⟨.label, 1, 1, 1⟩,
    .register "main" 7, .setVerbose true, .predefine "width" 5]

/-- The last values of the constants, in another order. -/
def sampleValues : List (Text × Int) := [("depth", 4), ("width", 5)]

end Session

theorem history_irrelevant_sample :
    ∃ program,
      ((({} : Session).performAll Session.namesOnly Session.sample).assemble
        (Source.text Source.sample)).2.1 = .ok program ∧
      ((({} : Session).performAll Session.namesOnly (Session.sampleValues.map fun d =>
        .predefine d.1 d.2)).assemble (Source.text Source.sample)).2.1 = .ok program := by
  have hlines : Text.lines? (Source.text Source.sample) = some Source.sample := by decide +kernel
  have hdefs : Session.definitions Session.namesOnly {} Session.sample =
      List.zip (["width", "depth", "width"] : List Text) [4, 4, 5] := by decide +kernel
  have hne : ("depth" : Text) ≠ "width" := by decide
  have hlast : ∀ name value, (name, value) ∈ Session.sampleValues ↔
      Session.lastValue? Session.namesOnly {} Session.sample name = some value := by
    intro name value
    rw [Session.lastValue?, hdefs]
    change _ ↔ List.lookup name [("width", 5), ("depth", 4), ("width", 4)] = some value
    simp only [lookup_cons_ite, Session.sampleValues, List.mem_cons, Prod.mk.injEq,
      List.not_mem_nil, or_false]
    by_cases hwidth : name = "width"
    · simp [hwidth, hne.symm, eq_comm]
    · by_cases hdepth : name = "depth"
      · simp [hdepth, hne, eq_comm]
      · simp [hwidth, hdepth]
  obtain ⟨hresult, -⟩ := history_irrelevant Session.namesOnly false (by decide) hlast hlines
  let values : Constants := ⟨Session.sampleValues, by decide⟩
  have hsymbols : values.symbols = ⟨values.entries.map fun e => (e.1, ⟨.const, e.2, 0, 0⟩)⟩ := by
    rw [Constants.symbols, List.mergeSort_of_pairwise (by decide)]
  have hok : (Assembly.run values (Line.ofTexts Source.sample)).2.isOk = true := by
    rw [Assembly.run_eq]
    unfold Assembly.initial
    rw [hsymbols]
    decide +kernel
  obtain ⟨a, program, hrun⟩ := Assembly.run_of_isOk hok
  have hfresh : ((({} : Session).performAll Session.namesOnly (Session.sampleValues.map fun d =>
      .predefine d.1 d.2)).assemble (Source.text Source.sample)).2.1 = .ok program :=
    (Assembler.result_of_lines hlines).trans (congrArg Prod.snd hrun)
  exact ⟨program, hresult.trans hfresh, hfresh⟩

end BarrelAsm
