import BarrelAsm.Proofs.Capacity
import BarrelAsm.Proofs.RegisterTable
import BarrelAsm.Proofs.ScopedSymbols

/-! Which line a failed assembly reports, and what can be wrong with a line in each pass. -/
namespace BarrelAsm

namespace Fault

/-- The faults of a program as a whole; no line is to blame for them. -/
def isWhole : Fault → Bool
  | tooFewProcesses _ _ | scheduleOverflow _ _ => true
  | _ => false

theorem isWhole_of_ofTokens {f : Fault} (h : f.ofTokens = true) : f.isWhole = false := by
  cases f with
  | tooFewProcesses | scheduleOverflow => cases h
  | _ => rfl

end Fault

namespace Diagnostic

/-- The number of the line that is reported, 0 for the program as a whole. -/
def lineNumber? : Diagnostic → Option Nat
  | lineTooLong => none
  | program _ => some 0
  | line l _ => some l.number

def fault? : Diagnostic → Option Fault
  | lineTooLong => none
  | program f => some f
  | line _ f => some f

end Diagnostic

theorem Line.text_of_mem {texts : List Text} {l : Line} (h : l ∈ ofTexts texts) :
    1 ≤ l.number ∧ l.number ≤ texts.length ∧ texts[l.number - 1]? = some l.text := by
  obtain ⟨i, hi⟩ := List.getElem?_of_mem h
  have hnum := numbered_ofTexts texts i l hi
  unfold ofTexts at hi
  rw [List.getElem?_map, List.getElem?_zipIdx] at hi
  obtain ⟨t, ht, rfl⟩ := Option.map_eq_some_iff.mp hi
  obtain ⟨u, hu, rfl⟩ := Option.map_eq_some_iff.mp ht
  have hlt := (List.getElem?_eq_some_iff.mp hu).1
  dsimp only at hnum ⊢
  refine ⟨by omega, by omega, ?_⟩
  rw [hnum]
  exact hu

/-- A computation that fails because of a line only. -/
def FaultsOfLine {α : Type} (x : Except Fault α) : Prop := ∀ f, x = .error f → f.isWhole = false

namespace FaultsOfLine

variable {α β : Type}

theorem ok (x : α) : FaultsOfLine (.ok x) := by
  intro f hf
  cases hf

theorem of_tokens {x : Except Fault α} (h : FaultsOfTokens x) : FaultsOfLine x :=
  fun f hf => Fault.isWhole_of_ofTokens (h f hf)

theorem bind {x : Except Fault α} {g : α → Except Fault β} (hx : FaultsOfLine x)
    (hg : ∀ v, FaultsOfLine (g v)) : FaultsOfLine (x >>= g) := by
  intro f hf
  rcases except_bind_fault hf with hf | ⟨v, -, hf⟩
  · exact hx f hf
  · exact hg v f hf

/-- A check of the place of a statement, and what comes after it. -/
theorem placed {p : Prop} [Decidable p] {text : Text} {x : Except Fault α} (hx : FaultsOfLine x) :
    FaultsOfLine (if p then .error (.misplaced text) else x) := by
  intro f hf
  rcases except_guard_fault hf with rfl | hf
  · rfl
  · exact hx f hf

theorem insert (t : SymbolTable) (name : Text) (sym : Symbol) :
    FaultsOfLine (t.insert name sym) := by
  intro f hf
  rw [(SymbolTable.insert_fault hf).1]
  rfl

theorem nameRegister (a : Assembly) (name : Text) (value : Int) :
    FaultsOfLine (a.nameRegister name value) := by
  unfold Assembly.nameRegister
  split_ifs
  · exact of_tokens (.error rfl)
  · exact insert a.symbols name _

theorem register (r : Registry) (name : Text) (location : Int) :
    FaultsOfLine (r.register name location) := by
  intro f hf
  unfold Registry.register at hf
  split at hf
  · cases hf
  · cases hf
  · cases hf
    rfl
  · split_ifs at hf
    cases hf
    rfl

end FaultsOfLine

namespace Assembly

variable {a b c d : Assembly} {line l : Line} {lines : List Line} {ts : List Token} {f : Fault}
  {constants : Constants}

theorem defineLabels_fault {ls : List Text} (h : defineLabels ls a = (b, some f)) :
    f.isWhole = false := by
  induction ls generalizing a with
  | nil => cases h
  | cons l ls ih =>
    rw [defineLabels_cons] at h
    rcases hl : a.defineLabel l with ⟨c, _ | g⟩
    · rw [hl] at h
      exact ih h
    · rw [hl] at h
      cases h
      have hlabel : FaultsOfLine (if a.process.isNone then .error (.misplaced l) else
          a.symbols.insert (a.qualify l) ⟨.label, a.pc, 1, a.pc⟩) := .placed (.insert _ _ _)
      exact hlabel f (Outcome.update_fault (a.defineLabel_eq l ▸ hl)).2

theorem declare_fault_line (h : a.declare line ts = (b, some f)) : f.isWhole = false := by
  cases ts with
  | nil => cases h
  | cons t ts =>
    rw [declare_cons] at h
    split at h
    · have hread : FaultsOfLine (readDeclaration (Expr.optional a.scope) ts).1 :=
        .of_tokens ((@Reader.Alike.optional a.scope a.scope).declaration.faults ts)
      exact (hread.bind fun _ => (FaultsOfLine.nameRegister a _ _).bind fun _ => .ok _) f
        (Outcome.update_fault (declareRegister_eq .. ▸ h)).2
    · have hread : FaultsOfLine (readDeclaration (Expr.immediate a.scope) ts).1 :=
        .of_tokens ((@Reader.Alike.immediate a.scope a.scope).declaration.faults ts)
      exact (FaultsOfLine.placed (hread.bind fun _ =>
        (FaultsOfLine.insert a.symbols _ _).bind fun _ => .ok _)) f
        (Outcome.update_fault (declareConst_eq .. ▸ h)).2
    · have hread : FaultsOfLine (readDeclaration (DataItem.read a.scope) ts).1 :=
        .of_tokens ((@Reader.Alike.dataItem a.scope a.scope).declaration.faults ts)
      exact (hread.bind fun _ => (FaultsOfLine.insert a.symbols _ _).bind fun _ => .ok _) f
        (Outcome.update_fault (declareData_eq .. ▸ h)).2
    · have hname : FaultsOfLine (Statement.processName ts).1 := .of_tokens (faults_processName ts)
      exact (FaultsOfLine.placed (hname.bind fun _ =>
        (FaultsOfLine.register a.processes _ _).bind fun _ => .ok _)) f
        (Outcome.update_fault (openProcess_eq .. ▸ h)).2
    · have hend : FaultsOfLine (Reader.finish ts).1 :=
        .of_tokens ((@Reader.Alike.finish a.scope a.scope).faults ts)
      exact (FaultsOfLine.placed hend) f (Outcome.update_fault (closeProcess_eq .. ▸ h)).2
    · cases h
    · cases h
    · cases h
      exact Fault.isWhole_of_ofTokens (ofTokens_unexpected t)

theorem firstPass_fault_line (h : firstPass line a = (b, some f)) : f.isWhole = false := by
  rw [firstPass_eq] at h
  rcases hs : Statement.ofLine? line.text with _ | s
  · rw [hs] at h
    cases h
  · rw [hs] at h
    dsimp only at h
    rcases hl : defineLabels s.labels (a.visit line) with ⟨c, _ | g⟩
    · rw [hl] at h
      exact declare_fault_line h
    · rw [hl] at h
      cases h
      exact defineLabels_fault hl

/-- A scratch register can only be missing because all registers are taken. -/
theorem scratchFor_fault {p : Pseudo} (h : a.scratchFor line p = (b, .error f)) :
    f.ofTokens = true := by
  rw [scratchFor_eq_ite] at h
  split_ifs at h
  · rw [scratch_eq] at h
    split at h
    · cases h
    · rename_i hnone
      split at h
      · rename_i g hs
        cases h
        unfold nameRegister at hs
        split_ifs at hs
        · cases hs
          rfl
        · have hsome := (SymbolTable.insert_fault hs).2
          rw [hnone] at hsome
          cases hsome
      · cases h
  · cases h

theorem expand_fault {op : PseudoOp} (h : a.expand line op ts = (b, some f)) :
    f.ofTokens = true := by
  rw [expand_eq] at h
  split at h
  · rename_i g rest hp
    cases h
    exact (@Reader.Alike.pseudo a.scope a.scope op).faults ts f (by rw [hp])
  · rename_i p rest _
    split at h
    · rename_i c g hs
      cases h
      exact scratchFor_fault hs
    · have hend := (Outcome.update_fault h).2
      exact (@Reader.Alike.finish a.scope a.scope).faults rest f hend

/-- A statement that the first pass carried out fails in the second pass only if it stands for
words, and because of its tokens. -/
theorem Declared.generate_fault (hd : Declared c l ts d) (hp : a.process = c.process)
    (h : a.generate line ts = (b, some f)) :
    f.ofTokens = true ∧
      ∃ t us, ts = t :: us ∧ (t.kind = .instruction ∨ t.kind = .pseudo) := by
  cases hd with
  | nothing =>
    rw [generate_nil] at h
    cases h
  | register hk | const hk | data hk =>
    simp only [generate_cons, hk] at h
    cases h
  | opening hk hout hn =>
    simp [generate_cons, hk, reopenProcess_eq, hp, hout, hn, Outcome.update] at h
  | closing hk hin hf =>
    simp [generate_cons, hk, recloseProcess_eq, hp, hin, hf, Outcome.update] at h
  | @instruction t ts hk =>
    refine ⟨?_, t, ts, rfl, .inl hk⟩
    simp only [generate_cons, hk] at h
    split at h
    · rename_i m _
      have hread := (Outcome.update_fault (encode_eq .. ▸ h)).2
      exact (@Reader.Alike.instructionAll a.scope a.scope m).faults ts f hread
    · cases h
      exact ofTokens_unexpected t
  | @pseudo t ts hk =>
    refine ⟨?_, t, ts, rfl, .inr hk⟩
    simp only [generate_cons, hk] at h
    split at h
    · exact expand_fault h
    · cases h
      exact ofTokens_unexpected t

theorem AtSecond.fault {pre : List Line} (h : AtSecond constants lines pre a)
    (hp : pre ++ [line] <+: lines) (hf : secondPass line a = (b, some f)) :
    f.ofTokens = true ∧
      ∃ t us, line.body = t :: us ∧ (t.kind = .instruction ∨ t.kind = .pseudo) := by
  obtain ⟨-, one, hone, -, htwo⟩ := h
  obtain ⟨c, d, -, hc, hd, -⟩ := runLines_at_ok hp hone
  have hprocess : a.process = c.process := by
    rw [(secondPass_place htwo).2, (firstPass_place hc).2]
  rw [secondPass_eq] at hf
  rcases hs : Statement.ofLine? line.text with _ | s
  · rw [hs] at hf
    cases hf
  · rw [hs] at hf
    rcases firstPass_ok hd with ⟨hn, -⟩ | ⟨s', e, hs', he, hb⟩
    · rw [hs] at hn
      cases hn
    · obtain rfl : s = s' := Option.some.inj (hs.symm.trans hs')
      have hlabels : (a.record (.line 2 line)).process = e.process := by
        rw [defineLabels_eq he]
        exact hprocess
      rw [Line.body_of_some hs]
      exact hb.generate_fault hlabels hf

/-! Faults of a run. -/

theorem run_whole_fault (h : (run constants lines).2 = .error (.program f)) : f.isWhole = true := by
  rw [run_eq] at h
  split at h
  · cases h
  · split at h
    · rename_i hcount
      cases h
      unfold checkProcessCount at hcount
      split_ifs at hcount
      cases hcount
      rfl
    · split at h
      · cases h
      · rw [finish_eq] at h
        split at h
        · rename_i hfit
          cases h
          rw [Registry.checkCapacity_eq] at hfit
          split_ifs at hfit
          cases hfit
          rfl
        · cases h

/-- A line is reported that fails in the first pass, or in the second if the first pass got through
the source. -/
theorem run_line_fault_iff : (run constants lines).2 = .error (.line l f) ↔
    (∃ pre a b, AtFirst constants lines pre a ∧ pre ++ [l] <+: lines ∧
      firstPass l a = (b, some f)) ∨
    ∃ pre a b, AtSecond constants lines pre a ∧ pre ++ [l] <+: lines ∧
      secondPass l a = (b, some f) := by
  constructor
  · intro h
    rw [run_eq] at h
    split at h
    · rename_i one k g hone
      cases h
      obtain ⟨pre, a, hp, hrun, hstep⟩ := runLines_fault_at hone
      exact .inl ⟨pre, a, one, ⟨(List.prefix_append pre [l]).trans hp, hrun⟩, hp, hstep⟩
    · rename_i one hone
      split at h
      · cases h
      · rename_i hcount
        split at h
        · rename_i two k g htwo
          cases h
          obtain ⟨pre, a, hp, hrun, hstep⟩ := runLines_fault_at htwo
          have hpre := (List.prefix_append pre [l]).trans hp
          exact .inr ⟨pre, a, two, ⟨hpre, one, hone, hcount, hrun⟩, hp, hstep⟩
        · rw [finish_eq] at h
          split at h <;> cases h
  · rintro (⟨pre, a, b, hat, hp, hstep⟩ | ⟨pre, a, b, hat, hp, hstep⟩)
    · exact run_firstPass_fault hat hp hstep
    · exact run_secondPass_fault hat hp hstep

theorem run_line_fault (h : (run constants lines).2 = .error (.line l f)) :
    l ∈ lines ∧ f.isWhole = false := by
  rcases run_line_fault_iff.mp h with ⟨pre, a, b, -, hp, hstep⟩ | ⟨pre, a, b, hat, hp, hstep⟩
  · exact ⟨hp.subset (by simp), firstPass_fault_line hstep⟩
  · have htokens := (hat.fault hp hstep).1
    exact ⟨hp.subset (by simp), Fault.isWhole_of_ofTokens htokens⟩

end Assembly

/-- An assembly that fails reports the program as a whole for the faults of a program, and else a
line with its number and its text. A line that fails in the first pass is reported whatever the
second pass would find before it. In the second pass only lines that stand for words fail, and never
because of a place or a name that is in use. -/
theorem faults_located (as : Assembler) (source : Text) :
    (∀ d, (as.assemble source).2.result = .error d → d ≠ .lineTooLong →
      ∃ texts f n, Text.lines? source = some texts ∧ d.fault? = some f ∧ d.lineNumber? = some n ∧
        (n = 0 ↔ f.isWhole = true) ∧
        (n ≠ 0 → n ≤ texts.length ∧
          ∃ text, texts[n - 1]? = some text ∧ d = .line ⟨n, text⟩ f)) ∧
    ∀ texts, Text.lines? source = some texts →
      (∀ pre line a b f, Assembly.AtFirst as.constants (Line.ofTexts texts) pre a →
        pre ++ [line] <+: Line.ofTexts texts → Assembly.firstPass line a = (b, some f) →
        (as.assemble source).2.result = .error (.line line f)) ∧
      (∀ l f, (as.assemble source).2.result = .error (.line l f) →
        (∃ pre a b, Assembly.AtFirst as.constants (Line.ofTexts texts) pre a ∧
          pre ++ [l] <+: Line.ofTexts texts ∧ Assembly.firstPass l a = (b, some f)) ∨
        ∃ pre a b, Assembly.AtSecond as.constants (Line.ofTexts texts) pre a ∧
          pre ++ [l] <+: Line.ofTexts texts ∧ Assembly.secondPass l a = (b, some f)) ∧
      ∀ pre line a b f, Assembly.AtSecond as.constants (Line.ofTexts texts) pre a →
        pre ++ [line] <+: Line.ofTexts texts → Assembly.secondPass line a = (b, some f) →
        (∃ t ts, line.body = t :: ts ∧ (t.kind = .instruction ∨ t.kind = .pseudo)) ∧
          (∀ text, f ≠ .misplaced text) ∧ (∀ name, f ≠ .duplicateProcess name) ∧
          ∀ name, f ≠ .duplicateSymbol name := by
  constructor
  · intro d hd hlong
    rcases hlines : Text.lines? source with _ | texts
    · unfold Assembler.assemble at hd
      rw [hlines] at hd
      cases hd
      exact absurd rfl hlong
    · rw [Assembler.result_of_lines hlines] at hd
      cases d with
      | lineTooLong => exact absurd rfl hlong
      | program f =>
        have hwhole := Assembly.run_whole_fault hd
        exact ⟨texts, f, 0, rfl, rfl, rfl, by simp [hwhole], by simp⟩
      | line l f =>
        obtain ⟨hmem, hwhole⟩ := Assembly.run_line_fault hd
        obtain ⟨hpos, hle, htext⟩ := Line.text_of_mem hmem
        refine ⟨texts, f, l.number, rfl, rfl, rfl, ?_, fun _ => ⟨hle, l.text, htext, rfl⟩⟩
        rw [hwhole]
        simp only [Bool.false_eq_true, iff_false]
        omega
  · intro texts hlines
    rw [Assembler.result_of_lines hlines]
    refine ⟨?_, fun l f h => Assembly.run_line_fault_iff.mp h, ?_⟩
    · intro pre line a b f hat hp hf
      exact Assembly.run_firstPass_fault hat hp hf
    · intro pre line a b f hat hp hf
      obtain ⟨htokens, hbody⟩ := hat.fault hp hf
      refine ⟨hbody, ?_, ?_, ?_⟩
      · rintro text rfl
        cases htokens
      · rintro name rfl
        cases htokens
      · rintro name rfl
        cases htokens

/-- A line that no word can be made of, and behind it a label outside of all processes. -/
def Source.labelSample : List Text := ["add q, q, q", "foo:"]

/-- Seven processes, and a last line with a token left over. -/
def Source.trailingSample : List Text := Source.idles ++ [("nop nop" : Text)]

theorem faults_located_sample :
    (({} : Assembler).assemble (Source.text Source.labelSample)).2.result =
        .error (.line ⟨2, "foo:"⟩ (.misplaced "foo")) ∧
      Source.labelSample[1]? = some (Text.ofString "foo:") ∧
      ∃ t ts, (⟨15, "nop nop"⟩ : Line).body = t :: ts ∧
        (t.kind = .instruction ∨ t.kind = .pseudo) := by
  obtain ⟨hreport, hfirst⟩ := faults_located {} (Source.text Source.labelSample)
  have hlines : Text.lines? (Source.text Source.labelSample) = some Source.labelSample := by
    decide +kernel
  have hlabel : (({} : Assembler).assemble (Source.text Source.labelSample)).2.result =
      .error (.line ⟨2, "foo:"⟩ (.misplaced "foo")) := by
    let lines := Line.ofTexts Source.labelSample
    let start := Assembly.initial {} lines.length
    have hrun : (runLines Assembly.firstPass (lines.take 1) start).2 = none := by decide +kernel
    have hstep : (Assembly.firstPass ⟨2, "foo:"⟩
        (runLines Assembly.firstPass (lines.take 1) start).1).2 = some (.misplaced "foo") := by
      decide +kernel
    exact (hfirst _ hlines).1 (lines.take 1) ⟨2, "foo:"⟩ _ _ _
      ⟨List.take_prefix 1 lines, Prod.ext rfl hrun⟩ (by decide +kernel) (Prod.ext rfl hstep)
  refine ⟨hlabel, ?_, ?_⟩
  · obtain ⟨texts, f, n, htexts, hf, hn, -, hline⟩ := hreport _ hlabel (by simp)
    rw [hlines] at htexts
    cases htexts
    cases hn
    obtain ⟨-, text, htext, hd⟩ := hline (by simp)
    cases hd
    exact htext
  · let lines := Line.ofTexts Source.trailingSample
    have hlines : Text.lines? (Source.text Source.trailingSample) = some Source.trailingSample := by
      decide +kernel
    let one := (runLines Assembly.firstPass lines (Assembly.initial {} lines.length)).1
    have hone : (runLines Assembly.firstPass lines
        (Assembly.initial {} lines.length)).2 = none := by
      decide +kernel
    let two := (runLines Assembly.secondPass (lines.take 14) one.restart).1
    have htwo : (runLines Assembly.secondPass (lines.take 14) one.restart).2 = none := by
      decide +kernel
    have hcount : Assembly.checkProcessCount one.processes = .ok () := by decide +kernel
    have hstep : (Assembly.secondPass ⟨15, "nop nop"⟩ two).2 = some (.trailing "nop") := by
      decide +kernel
    have hat : Assembly.AtSecond {} lines (lines.take 14) two :=
      ⟨List.take_prefix 14 lines, one, Prod.ext rfl hone, hcount, Prod.ext rfl htwo⟩
    have hsecond := ((faults_located {} (Source.text Source.trailingSample)).2 _ hlines).2.2
    have hfails : Assembly.secondPass ⟨15, "nop nop"⟩ two =
        ((Assembly.secondPass ⟨15, "nop nop"⟩ two).1, some (.trailing "nop")) := Prod.ext rfl hstep
    exact (hsecond _ _ _ _ _ hat (by decide +kernel) hfails).1

end BarrelAsm
