import BarrelAsm.Proofs.Registry
import BarrelAsm.Proofs.Scratch

/-! What the second pass does to the tables of the first, whether it fails or not: it adds the
scratch registers, in the order in which their scopes first use them, and nothing else. -/
namespace BarrelAsm

namespace Source

/-- The scopes that use a scratch register whose name is still free, in the order of first use. -/
def scratchScopes (taken : SymbolTable) (lines : List Line) : List (Option Text) :=
  (((sites lines).filter fun s =>
    s.line.usesScratch && (taken.get? (Assembly.scratchName s.process)).isNone).map
      Site.process).eraseDups

/-- The symbols of the scratch registers of these scopes, from a location on. -/
def scratchEntries (next : Nat) (scopes : List (Option Text)) : List (Text × Symbol) :=
  scopes.zipIdx.map fun e =>
    (("___macro" : Text) ++ Scope.qualifier e.1 ++ ("1__" : Text), ⟨.register, 0, 1, ↑(next + e.2)⟩)

variable {taken : SymbolTable} {lines : List Line} {line : Line} {p : Option Text}

theorem mem_scratchScopes : p ∈ scratchScopes taken lines ↔
    ∃ s ∈ sites lines, s.line.usesScratch = true ∧
      taken.get? (Assembly.scratchName s.process) = none ∧ s.process = p := by
  simp [scratchScopes, and_assoc]

theorem scratchScopes_concat_of_not
    (h : ¬(line.usesScratch = true ∧ taken.get? (Assembly.scratchName (process lines)) = none)) :
    scratchScopes taken (lines ++ [line]) = scratchScopes taken lines := by
  have hfalse : (line.usesScratch &&
      (taken.get? (Assembly.scratchName (process lines))).isNone) = false := by
    rw [← Bool.not_eq_true, Bool.and_eq_true, Option.isNone_iff_eq_none]
    exact h
  simp [scratchScopes, hfalse]

section Uses

variable (hu : line.usesScratch = true)
  (hfree : taken.get? (Assembly.scratchName (process lines)) = none)
include hu hfree

theorem scratchScopes_concat_of_mem (h : process lines ∈ scratchScopes taken lines) :
    scratchScopes taken (lines ++ [line]) = scratchScopes taken lines := by
  have hmem := List.mem_eraseDups.mp h
  unfold scratchScopes
  rw [← eraseDups_concat_of_mem hmem]
  simp [hu, hfree]

theorem scratchScopes_concat_of_notMem (h : process lines ∉ scratchScopes taken lines) :
    scratchScopes taken (lines ++ [line]) = scratchScopes taken lines ++ [process lines] := by
  have hmem := mt List.mem_eraseDups.mpr h
  unfold scratchScopes
  rw [← eraseDups_concat_of_notMem hmem]
  simp [hu, hfree]

end Uses

theorem scratchEntries_concat (next : Nat) (scopes : List (Option Text)) (p : Option Text) :
    scratchEntries next (scopes ++ [p]) = scratchEntries next scopes ++
      [(Assembly.scratchName p, ⟨.register, 0, 1, ↑(next + scopes.length)⟩)] := by
  simp [scratchEntries, List.zipIdx_append, Assembly.scratchName]

theorem lookup_scratchEntries (next : Nat) (scopes : List (Option Text)) (p : Option Text) :
    (scratchEntries next scopes).lookup (Assembly.scratchName p) = none ↔ p ∉ scopes := by
  rw [List.lookup_eq_none_iff]
  constructor
  · intro h hp
    obtain ⟨i, hi⟩ := List.getElem?_of_mem hp
    have hmem : (p, i) ∈ scopes.zipIdx := by
      rw [List.mem_zipIdx_iff_getElem?]
      exact hi
    have hne := h _ (List.mem_map.mpr ⟨(p, i), hmem, rfl⟩)
    simp [Assembly.scratchName] at hne
  · intro h e he
    obtain ⟨⟨q, i⟩, hq, rfl⟩ := List.mem_map.mp he
    have hne : p ≠ q := by
      rintro rfl
      rw [List.mem_zipIdx_iff_getElem?] at hq
      exact h (List.mem_of_getElem? hq)
    have hname : Assembly.scratchName p ≠ Assembly.scratchName q := fun heq =>
      hne (Assembly.scratchName_injective heq)
    simpa [Assembly.scratchName] using hname

end Source

theorem PseudoOp.name_mem_of_usesScratch : ∀ op ∈ all, op.usesScratch = true →
    op.name ∈ (["sub", "jeq", "jne", "jlt", "jge", "jgt", "jle", "jbs", "jbc"] : List Text) := by
  decide

/-- The statement of a line that works in a scratch register is one of these. -/
theorem Line.exists_mnemonic {l : Line} (h : l.usesScratch = true) :
    ∃ t ts, l.body = t :: ts ∧ t.kind = .pseudo ∧
      t.text ∈ (["sub", "jeq", "jne", "jlt", "jge", "jgt", "jle", "jbs", "jbc"] : List Text) := by
  obtain ⟨op, hop, hu⟩ := (Option.any_eq_true _ _).mp h
  unfold Line.pseudo? at hop
  split at hop
  · rename_i t ts hbody
    split_ifs at hop with hk
    have hname : op.name = t.text := by simpa using List.find?_some hop
    refine ⟨t, ts, hbody, hk, ?_⟩
    rw [← hname]
    exact PseudoOp.name_mem_of_usesScratch op (List.mem_of_find?_eq_some hop) hu
  · cases hop

namespace Assembly

variable {a b c one two : Assembly} {line : Line} {lines : List Line} {ts : List Token}
  {constants : Constants}

/-- The tables that the first pass builds. -/
structure Tables where
  symbols : SymbolTable
  registers : Array UInt16
  registerNext : Nat
  data : Array UInt8
  dataNext : Nat
  processes : Registry

def tables (a : Assembly) : Tables :=
  ⟨a.symbols, a.registers, a.registerNext, a.data, a.dataNext, a.processes⟩

/-- The scratch register of the scope is the next one, and nothing else is new in the tables. -/
def AddsScratch (a b : Assembly) : Prop :=
  a.symbols.get? (scratchName a.process) = none ∧
    ∃ symbols, a.nameRegister (scratchName a.process) 0 = .ok symbols ∧
      b.tables = (a.addRegister symbols 0).tables

theorem scratchFor_tables (a : Assembly) (line : Line) (p : Pseudo) :
    (a.scratchFor line p).1.tables = a.tables ∨
      (p.usesScratch = true ∧ AddsScratch a (a.scratchFor line p).1) := by
  rw [scratchFor_eq_ite]
  split_ifs with hu
  · rw [scratch_eq]
    split
    · exact .inl rfl
    · rename_i hnone
      split
      · exact .inl rfl
      · rename_i symbols hs
        exact .inr ⟨hu, hnone, symbols, hs, rfl⟩
  · exact .inl rfl

/-- The scratch register stays when tokens are left over behind the operands. -/
theorem expand_tables (a : Assembly) (line : Line) (op : PseudoOp) (ts : List Token) :
    (a.expand line op ts).1.tables = a.tables ∨
      (op.usesScratch = true ∧ AddsScratch a (a.expand line op ts).1) := by
  rw [expand_eq]
  split
  · exact .inl rfl
  · rename_i p rest hp
    have hop : op.usesScratch = p.usesScratch := by
      rw [← Pseudo.op_of_read hp, Pseudo.usesScratch_op]
    have htables := scratchFor_tables a line p
    rw [hop]
    split
    · rename_i b f hb
      rw [hb] at htables
      exact htables
    · rename_i b r hb
      rw [hb] at htables
      rcases (Reader.finish rest).1 with f | _
      · exact htables
      · exact htables

theorem update_tables {α : Type} {found : Except Fault α} {change : Assembly → α → Assembly}
    (h : ∀ x, (change a x).tables = a.tables) :
    (Outcome.update a found change).1.tables = a.tables := by
  cases found with
  | error f => rfl
  | ok x => exact h x

theorem generate_tables (a : Assembly) (h : line.body = ts) :
    (a.generate line ts).1.tables = a.tables ∨
      (line.usesScratch = true ∧ AddsScratch a (a.generate line ts).1) := by
  cases ts with
  | nil =>
    rw [generate_nil]
    exact .inl rfl
  | cons t ts =>
    rw [generate_cons]
    split
    · exact .inl rfl
    · exact .inl rfl
    · exact .inl rfl
    · rw [reopenProcess_eq]
      exact .inl (update_tables fun _ => rfl)
    · rw [recloseProcess_eq]
      exact .inl (update_tables fun _ => rfl)
    · split
      · rw [encode_eq]
        exact .inl (update_tables fun _ => rfl)
      · exact .inl rfl
    · rename_i hk
      split
      · rename_i op hop
        have hline : line.usesScratch = op.usesScratch := by
          simp [Line.usesScratch, Line.pseudo?, h, hk, hop]
        rw [hline]
        exact expand_tables a line op ts
      · exact .inl rfl
    · exact .inl rfl

/-- A line of the second pass leaves the tables alone or adds the scratch register of its scope. -/
theorem secondPass_tables (line : Line) (a : Assembly) :
    (secondPass line a).1.tables = a.tables ∨
      (line.usesScratch = true ∧ AddsScratch a (secondPass line a).1) := by
  rw [secondPass_eq]
  split
  · exact .inl rfl
  · rename_i s hs
    exact generate_tables (a.record (.line 2 line)) (Line.body_of_some hs)

theorem secondPass_scratch (h : secondPass line a = (b, none)) (hu : line.usesScratch = true) :
    ∃ sym, b.symbols.get? (scratchName a.process) = some sym := by
  rcases secondPass_ok h with ⟨hn, -⟩ | ⟨s, hs, hg⟩
  · rw [Line.usesScratch, Line.pseudo?, Line.body_of_none hn] at hu
    cases hu
  · rw [← Line.body_of_some hs] at hg
    obtain ⟨sym, o, hsym, -⟩ := hg.scratch hu
    exact ⟨sym, hsym⟩

/-- The tables of the first pass, with the scratch registers of these scopes behind them. -/
structure ScratchAdded (one : Assembly) (scopes : List (Option Text)) (a : Assembly) : Prop where
  symbols : a.symbols.entries =
    one.symbols.entries ++ Source.scratchEntries one.registerNext scopes
  registers : a.registers = one.registers ++ Array.replicate scopes.length 0
  registerNext : a.registerNext = one.registerNext + scopes.length
  data : a.data = one.data
  dataNext : a.dataNext = one.dataNext
  processes : a.processes = one.processes.finalize
  nodup : scopes.Nodup

namespace ScratchAdded

variable {scopes : List (Option Text)}

theorem restart (one : Assembly) : ScratchAdded one [] one.restart where
  symbols := by simp [Source.scratchEntries, Assembly.restart, Assembly.beginPass]
  registers := by simp [Assembly.restart, Assembly.beginPass]
  registerNext := rfl
  data := rfl
  dataNext := rfl
  processes := rfl
  nodup := List.nodup_nil

theorem get?_eq_none_iff (h : ScratchAdded one scopes a) (p : Option Text) :
    a.symbols.get? (scratchName p) = none ↔
      one.symbols.get? (scratchName p) = none ∧ p ∉ scopes := by
  rw [SymbolTable.get?, h.symbols, List.lookup_append, Option.or_eq_none_iff,
    Source.lookup_scratchEntries]
  rfl

theorem of_tables (h : ScratchAdded one scopes a) (ht : b.tables = a.tables) :
    ScratchAdded one scopes b where
  symbols := (congrArg (fun t => t.symbols.entries) ht).trans h.symbols
  registers := (congrArg Tables.registers ht).trans h.registers
  registerNext := (congrArg Tables.registerNext ht).trans h.registerNext
  data := (congrArg Tables.data ht).trans h.data
  dataNext := (congrArg Tables.dataNext ht).trans h.dataNext
  processes := (congrArg Tables.processes ht).trans h.processes
  nodup := h.nodup

theorem adds (h : ScratchAdded one scopes a) (hb : AddsScratch a b) :
    ScratchAdded one (scopes ++ [a.process]) b := by
  obtain ⟨hfree, symbols, hname, ht⟩ := hb
  obtain ⟨-, hins⟩ := nameRegister_ok hname
  have hnotMem : a.process ∉ scopes := ((h.get?_eq_none_iff a.process).mp hfree).2
  have hadded : ScratchAdded one (scopes ++ [a.process]) (a.addRegister symbols 0) :=
    { symbols := by
        have he : (a.addRegister symbols 0).symbols = symbols := rfl
        rw [he, SymbolTable.entries_insert hins, h.symbols, h.registerNext,
          Source.scratchEntries_concat, List.append_assoc]
      registers := by
        have he : (a.addRegister symbols 0).registers = a.registers.push 0 := rfl
        rw [he, h.registers]
        simp [Array.replicate_succ]
      registerNext := by
        have he : (a.addRegister symbols 0).registerNext = a.registerNext + 1 := rfl
        rw [he, h.registerNext]
        simp [Nat.add_assoc]
      data := h.data
      dataNext := h.dataNext
      processes := h.processes
      nodup := by
        refine List.nodup_append.mpr ⟨h.nodup, List.nodup_singleton _, ?_⟩
        intro p hp q hq he
        rw [he, List.mem_singleton.mp hq] at hp
        exact hnotMem hp }
  exact hadded.of_tables ht

section Line

variable {pre : List Line} (h : ScratchAdded one (Source.scratchScopes one.symbols pre) a)
  (hp : a.process = Source.process pre)
include h hp

theorem adds_scope (hu : line.usesScratch = true) (hb : AddsScratch a b) :
    ScratchAdded one (Source.scratchScopes one.symbols (pre ++ [line])) b := by
  obtain ⟨hfree, hnew⟩ := (h.get?_eq_none_iff a.process).mp hb.1
  rw [hp] at hfree hnew
  rw [Source.scratchScopes_concat_of_notMem hu hfree hnew, ← hp]
  exact h.adds hb

/-- A line that succeeds leaves its scope with a scratch register if it works in one. -/
theorem secondPass (hb : Assembly.secondPass line a = (b, none)) :
    ScratchAdded one (Source.scratchScopes one.symbols (pre ++ [line])) b := by
  have htables := secondPass_tables line a
  rw [hb] at htables
  rcases htables with hsame | ⟨hu, hadds⟩
  · have hscopes : Source.scratchScopes one.symbols (pre ++ [line]) =
        Source.scratchScopes one.symbols pre := by
      by_cases hc : line.usesScratch = true ∧
          one.symbols.get? (scratchName (Source.process pre)) = none
      -- The name has been free, so the register that the line has found is one added before it.
      · apply Source.scratchScopes_concat_of_mem hc.1 hc.2
        obtain ⟨sym, hsym⟩ := secondPass_scratch hb hc.1
        by_contra hnew
        have hnone := (h.get?_eq_none_iff _).mpr ⟨hc.2, hnew⟩
        have hsymbols : b.symbols = a.symbols := congrArg Tables.symbols hsame
        rw [← hp, ← hsymbols, hsym] at hnone
        cases hnone
      · exact Source.scratchScopes_concat_of_not hc
    rw [hscopes]
    exact h.of_tables hsame
  · exact h.adds_scope hp hu hadds

theorem secondPass_fault {f : Fault} (hb : Assembly.secondPass line a = (b, some f)) :
    ∃ reached, (reached = pre ∨ reached = pre ++ [line]) ∧
      ScratchAdded one (Source.scratchScopes one.symbols reached) b := by
  have htables := secondPass_tables line a
  rw [hb] at htables
  rcases htables with hsame | ⟨hu, hadds⟩
  · exact ⟨pre, .inl rfl, h.of_tables hsame⟩
  · exact ⟨pre ++ [line], .inr rfl, h.adds_scope hp hu hadds⟩

end Line

theorem of_runLines (h : runLines Assembly.secondPass lines one.restart = (b, none)) :
    ScratchAdded one (Source.scratchScopes one.symbols lines) b := by
  refine runLines_induction
    (P := fun pre x => ScratchAdded one (Source.scratchScopes one.symbols pre) x) h
    (ScratchAdded.restart one) ?_
  intro pre line c d _ hc hadded hd
  exact hadded.secondPass (secondPass_place hc).2 hd

end ScratchAdded

theorem run_tables {fault : Option (Line × Fault)} {result : Except Diagnostic Program}
    (hone : runLines firstPass lines (initial constants lines.length) = (one, none))
    (hcount : checkProcessCount one.processes = .ok ())
    (htwo : runLines secondPass lines one.restart = (two, fault))
    (h : run constants lines = (a, result)) : a.tables = two.tables := by
  rw [run_eq, hone] at h
  dsimp only at h
  rw [hcount] at h
  dsimp only at h
  rw [htwo] at h
  cases fault with
  | some e =>
    cases h
    rfl
  | none =>
    dsimp only at h
    rw [finish_eq] at h
    split at h
    · cases h
      rfl
    · cases h
      rfl

/-- Whether it succeeds or fails, the second pass only adds scratch registers to the tables of the
first pass: one for each scope that uses one whose name is free, at the next locations in the order
of first use, with the value 0. A pass that fails has come to the line that it fails at. -/
theorem secondPass_only_allocates {fault : Option (Line × Fault)}
    (hone : runLines firstPass lines (initial constants lines.length) = (one, none))
    (htwo : runLines secondPass lines one.restart = (two, fault)) :
    (∀ name sym, one.symbols.get? name = some sym → two.symbols.get? name = some sym) ∧
      two.data = one.data ∧ two.dataNext = one.dataNext ∧
      two.processes = one.processes.finalize ∧
      two.processes.entries.Perm one.processes.entries ∧
      (∃ reached, reached <+: lines ∧ (fault = none → reached = lines) ∧
        (∀ l f, fault = some (l, f) →
          ∃ pre, pre ++ [l] <+: lines ∧ (reached = pre ∨ reached = pre ++ [l])) ∧
        ∃ scopes, scopes = Source.scratchScopes one.symbols reached ∧ scopes.Nodup ∧
          two.symbols.entries =
            one.symbols.entries ++ Source.scratchEntries one.registerNext scopes ∧
          two.registers = one.registers ++ Array.replicate scopes.length 0 ∧
          two.registerNext = one.registerNext + scopes.length ∧
          ∀ p ∈ scopes, ∃ s ∈ Source.sites reached, s.process = p ∧
            ∃ t ts, s.line.body = t :: ts ∧ t.kind = .pseudo ∧ t.text ∈
              (["sub", "jeq", "jne", "jlt", "jge", "jgt", "jle", "jbs", "jbc"] : List Text)) ∧
      ∀ a result, checkProcessCount one.processes = .ok () → run constants lines = (a, result) →
        a.tables = two.tables ∧ ∀ program, result = .ok program →
          program.data = one.data ∧ program.registers = two.registers := by
  obtain ⟨reached, hprefix, hall, hpart, hadded⟩ : ∃ reached, reached <+: lines ∧
      (fault = none → reached = lines) ∧
      (∀ l f, fault = some (l, f) →
        ∃ pre, pre ++ [l] <+: lines ∧ (reached = pre ∨ reached = pre ++ [l])) ∧
      ScratchAdded one (Source.scratchScopes one.symbols reached) two := by
    cases fault with
    | none => exact ⟨lines, List.prefix_refl _, fun _ => rfl, by simp, .of_runLines htwo⟩
    | some e =>
      obtain ⟨l, f⟩ := e
      obtain ⟨pre, c, hp, hc, hl⟩ := runLines_fault_at htwo
      have hpre := ScratchAdded.of_runLines hc
      obtain ⟨reached, hreached, hadded⟩ := hpre.secondPass_fault (secondPass_place hc).2 hl
      refine ⟨reached, ?_, by simp, ?_, hadded⟩
      · rcases hreached with rfl | rfl
        · exact (List.prefix_append _ _).trans hp
        · exact hp
      · intro l' f' he
        cases he
        exact ⟨pre, hp, hreached⟩
  refine ⟨?_, hadded.data, hadded.dataNext, hadded.processes, ?_, ?_, ?_⟩
  · intro name sym hsym
    exact SymbolTable.get?_of_prefix ⟨_, hadded.symbols.symm⟩ hsym
  · rw [hadded.processes]
    exact Registry.entries_finalize_perm _
  · refine ⟨reached, hprefix, hall, hpart, _, rfl, hadded.nodup, hadded.symbols, hadded.registers,
      hadded.registerNext, ?_⟩
    intro p hp
    obtain ⟨s, hs, hu, -, hproc⟩ := Source.mem_scratchScopes.mp hp
    exact ⟨s, hs, hproc, Line.exists_mnemonic hu⟩
  · intro a result hcount hrun
    have htables := run_tables hone hcount htwo hrun
    refine ⟨htables, ?_⟩
    rintro program rfl
    obtain ⟨_, _, -, -, -, -, rfl, rfl⟩ := run_ok hrun
    exact ⟨(congrArg Tables.data htables).trans hadded.data, congrArg Tables.registers htables⟩

theorem secondPass_only_allocates_sample :
    ∃ one two, runLines firstPass (Line.ofTexts Source.sample)
        (initial {} (Line.ofTexts Source.sample).length) = (one, none) ∧
      runLines secondPass (Line.ofTexts Source.sample) one.restart = (two, none) ∧
      two.registers = one.registers ++ #[0, 0] ∧
      two.symbols.entries = one.symbols.entries ++
        ([("___macromain.1__", ⟨.register, 0, 1, 2⟩),
          ("___macroworker.a.1__", ⟨.register, 0, 1, 3⟩)] : List (Text × Symbol)) := by
  obtain ⟨a, program, h⟩ := Source.run_sample
  obtain ⟨one, two, hone, -, htwo, -⟩ := run_ok h
  obtain ⟨-, -, -, -, -, ⟨reached, -, hall, -, scopes, hscopes, -, hsyms, hregs, -⟩, -⟩ :=
    secondPass_only_allocates hone htwo
  have hfst : one = (runLines firstPass (Line.ofTexts Source.sample)
      (initial {} (Line.ofTexts Source.sample).length)).1 := by rw [hone]
  have hnext : one.registerNext = 2 := by
    rw [hfst]
    decide +kernel
  have hscopes : scopes = ([some "main", some "worker.a"] : List (Option Text)) := by
    rw [hscopes, hall rfl, hfst]
    decide +kernel
  rw [hscopes] at hsyms hregs
  rw [hnext] at hsyms
  exact ⟨one, two, hone, htwo, hregs, hsyms⟩

end Assembly
end BarrelAsm
