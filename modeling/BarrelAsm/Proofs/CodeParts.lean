import BarrelAsm.Proofs.Layout
import Mathlib.Data.List.Forall2

/-! Comments, blanks and empty lines do not matter: sources with the same code parts are assembled
in step, with the same words, tables and faults. What differs is what shows the layout of the
source, namely line numbers, texts, the listing and the events. -/
namespace BarrelAsm

/-- The code parts of lines, without the empty ones. -/
def Source.codes (texts : List Text) : List Text :=
  (texts.map Statement.code).filter fun c => !c.isEmpty

/-- Whether a line has anything besides blanks and a comment. -/
def Line.hasCode (l : Line) : Bool := !(Statement.code l.text).isEmpty

/-- The lines that have code. -/
def Source.codeLines (texts : List Text) : List Line := (Line.ofTexts texts).filter Line.hasCode

/-- What an opcode puts into the program memory. -/
def Opcode.content (op : Opcode) : Int × List Word := (op.address, op.words)

theorem Statement.ofLine?_congr {s t : Text} (h : code s = code t) : ofLine? s = ofLine? t := by
  unfold ofLine?
  rw [h]

theorem Line.ofLine?_of_not_hasCode {l : Line} (h : l.hasCode = false) :
    Statement.ofLine? l.text = none := by
  have he : (Statement.code l.text).isEmpty = true := by simpa [hasCode] using h
  simp [Statement.ofLine?, he]

theorem Source.map_text_ofTexts (texts : List Text) :
    (Line.ofTexts texts).map Line.text = texts := by
  unfold Line.ofTexts
  rw [List.map_map]
  exact List.zipIdx_map_fst 1 texts

theorem Source.map_code_codeLines (texts : List Text) :
    (codeLines texts).map (fun l => Statement.code l.text) = codes texts := by
  unfold codeLines codes
  rw [← map_text_ofTexts texts, List.map_map, List.filter_map, map_text_ofTexts]
  rfl

/-- Where the code parts are the same, so are those of the lines with code, one by one. -/
theorem Source.forall₂_codeLines {xs ys : List Text} (h : codes xs = codes ys) :
    List.Forall₂ (fun l k => Statement.code l.text = Statement.code k.text) (codeLines xs)
      (codeLines ys) := by
  rw [← map_code_codeLines xs, ← map_code_codeLines ys, ← List.forall₂_eq_eq_eq,
    List.forall₂_map_left_iff, List.forall₂_map_right_iff] at h
  exact h

namespace Assembly

/-- The states agree but for what shows the layout of the source. -/
def SameCode (a b : Assembly) : Prop :=
  ∃ opcodes listing addresses events, b = { a with opcodes, listing, addresses, events } ∧
    opcodes.map Opcode.content = a.opcodes.map Opcode.content

/-- The states agree, and what comes with them is the same. -/
def SameOutcome {α : Type} (p q : Assembly × α) : Prop := SameCode p.1 q.1 ∧ p.2 = q.2

theorem SameOutcome.exists_eq {α : Type} {p q : Assembly × α} (h : SameOutcome p q) :
    ∃ a b x, SameCode a b ∧ p = (a, x) ∧ q = (b, x) :=
  ⟨p.1, q.1, p.2, h.1, rfl, Prod.ext rfl h.2.symm⟩

namespace SameCode

variable {a b c : Assembly} {l k : Line}

theorem refl (a : Assembly) : SameCode a a := ⟨_, _, _, _, rfl, rfl⟩

theorem symm (h : SameCode a b) : SameCode b a := by
  obtain ⟨opcodes, listing, addresses, events, rfl, ho⟩ := h
  exact ⟨a.opcodes, a.listing, a.addresses, a.events, rfl, ho.symm⟩

theorem trans (h : SameCode a b) (h' : SameCode b c) : SameCode a c := by
  obtain ⟨opcodes, listing, addresses, events, rfl, ho⟩ := h
  obtain ⟨opcodes', listing', addresses', events', rfl, ho'⟩ := h'
  exact ⟨opcodes', listing', addresses', events', rfl, ho'.trans ho⟩

theorem symbols (h : SameCode a b) : a.symbols = b.symbols := by
  obtain ⟨opcodes, listing, addresses, events, rfl, -⟩ := h
  rfl

theorem processes (h : SameCode a b) : a.processes = b.processes := by
  obtain ⟨opcodes, listing, addresses, events, rfl, -⟩ := h
  rfl

theorem scope (h : SameCode a b) : a.scope = b.scope := by
  obtain ⟨opcodes, listing, addresses, events, rfl, -⟩ := h
  rfl

theorem record (h : SameCode a b) (e e' : Event) : SameCode (a.record e) (b.record e') := by
  obtain ⟨opcodes, listing, addresses, events, rfl, ho⟩ := h
  exact ⟨_, _, _, _, rfl, ho⟩

theorem visit (h : SameCode a b) (l k : Line) : SameCode (a.visit l) (b.visit k) := by
  obtain ⟨opcodes, listing, addresses, events, rfl, ho⟩ := h
  exact ⟨_, _, _, _, rfl, ho⟩

theorem list (h : SameCode a b) (l k : Line) (m n : Int) (s t : Text) :
    SameCode (a.list l m s) (b.list k n t) := by
  obtain ⟨opcodes, listing, addresses, events, rfl, ho⟩ := h
  exact ⟨_, _, _, _, rfl, ho⟩

theorem emit (h : SameCode a b) (l k : Line) (w : Word) : SameCode (a.emit l w) (b.emit k w) := by
  obtain ⟨opcodes, listing, addresses, events, rfl, ho⟩ := h
  refine ⟨_, _, _, _, rfl, ?_⟩
  simp only [Assembly.emit, Assembly.list, Array.map_push, ho]
  rfl

theorem emitExpansion (h : SameCode a b) (l k : Line) (ws : List Word) :
    SameCode (a.emitExpansion l ws) (b.emitExpansion k ws) := by
  obtain ⟨opcodes, listing, addresses, events, rfl, ho⟩ := h
  refine ⟨_, _, _, _, rfl, ?_⟩
  simp only [Assembly.emitExpansion, Array.map_push, ho]
  rfl

theorem restart (h : SameCode a b) : SameCode a.restart b.restart := by
  obtain ⟨opcodes, listing, addresses, events, rfl, ho⟩ := h
  exact ⟨_, _, _, _, rfl, ho⟩

/-- What is found out is the same, and so is the change. -/
theorem update {α : Type} {found : Except Fault α} {change change' : Assembly → α → Assembly}
    (h : SameCode a b) (hc : ∀ x, SameCode (change a x) (change' b x)) :
    SameOutcome (Outcome.update a found change) (Outcome.update b found change') := by
  cases found with
  | error f => exact ⟨h, rfl⟩
  | ok x => exact ⟨hc x, rfl⟩

theorem defineLabels (h : SameCode a b) (ls : List Text) :
    SameOutcome (Assembly.defineLabels ls a) (Assembly.defineLabels ls b) := by
  induction ls generalizing a b with
  | nil => exact ⟨h, rfl⟩
  | cons l ls ih =>
    have hl : SameOutcome (a.defineLabel l) (b.defineLabel l) := by
      obtain ⟨opcodes, listing, addresses, events, rfl, ho⟩ := h
      rw [defineLabel_eq, defineLabel_eq]
      exact update ⟨_, _, _, _, rfl, ho⟩ fun symbols => ⟨_, _, _, _, rfl, ho⟩
    obtain ⟨c, d, f, hcd, hc, hd⟩ := hl.exists_eq
    rw [defineLabels_cons, defineLabels_cons, hc, hd]
    cases f with
    | none => exact ih hcd
    | some f => exact ⟨hcd, rfl⟩

theorem declare (h : SameCode a b) (l k : Line) (ts : List Token) :
    SameOutcome (a.declare l ts) (b.declare k ts) := by
  obtain ⟨opcodes, listing, addresses, events, rfl, ho⟩ := h
  have hab : SameCode a { a with opcodes, listing, addresses, events } := ⟨_, _, _, _, rfl, ho⟩
  cases ts with
  | nil => exact ⟨hab, rfl⟩
  | cons t ts =>
    rw [declare_cons, declare_cons]
    cases t.kind with
    | regDecl | constDecl | dataDecl | process | endProcess =>
      simp only [declareRegister_eq, declareConst_eq, declareData_eq, openProcess_eq,
        closeProcess_eq]
      apply hab.update
      intro x
      exact ⟨_, _, _, _, rfl, ho⟩
    | instruction | pseudo => exact ⟨⟨_, _, _, _, rfl, ho⟩, rfl⟩
    | _ => exact ⟨hab, rfl⟩

theorem scratchFor (h : SameCode a b) (l k : Line) (p : Pseudo) :
    SameOutcome (a.scratchFor l p) (b.scratchFor k p) := by
  obtain ⟨opcodes, listing, addresses, events, rfl, ho⟩ := h
  have hab : SameCode a { a with opcodes, listing, addresses, events } := ⟨_, _, _, _, rfl, ho⟩
  rw [scratchFor_eq_ite, scratchFor_eq_ite]
  split_ifs
  · rw [scratch_eq, scratch_eq]
    dsimp only
    cases a.symbols.get? (scratchName a.process) with
    | some sym => exact ⟨hab, rfl⟩
    | none =>
      have hname : ({ a with opcodes, listing, addresses, events } : Assembly).nameRegister
          (scratchName a.process) 0 = a.nameRegister (scratchName a.process) 0 := rfl
      rw [hname]
      cases a.nameRegister (scratchName a.process) 0 with
      | error f => exact ⟨hab, rfl⟩
      | ok symbols => exact ⟨⟨_, _, _, _, rfl, ho⟩, rfl⟩
  · exact ⟨hab, rfl⟩

theorem expand (h : SameCode a b) (l k : Line) (op : PseudoOp) (ts : List Token) :
    SameOutcome (a.expand l op ts) (b.expand k op ts) := by
  rw [expand_eq, expand_eq, h.scope]
  rcases Pseudo.read b.scope op ts with ⟨f | p, rest⟩
  · exact ⟨h, rfl⟩
  · obtain ⟨c, d, r, hcd, hc, hd⟩ := (h.scratchFor l k p).exists_eq
    dsimp only
    rw [hc, hd]
    cases r with
    | error f => exact ⟨hcd, rfl⟩
    | ok r => exact update hcd fun _ => hcd.emitExpansion l k _

theorem generate (h : SameCode a b) (l k : Line) (ts : List Token) :
    SameOutcome (a.generate l ts) (b.generate k ts) := by
  cases ts with
  | nil =>
    rw [generate_nil, generate_nil]
    exact ⟨h.list l k _ _ _ _, rfl⟩
  | cons t ts =>
    have hexpand : ∀ op, SameOutcome (a.expand l op ts) (b.expand k op ts) := by
      intro op
      exact h.expand l k op ts
    have hemit : ∀ w, SameCode (a.emit l w) (b.emit k w) := h.emit l k
    obtain ⟨opcodes, listing, addresses, events, rfl, ho⟩ := h
    have hab : SameCode a { a with opcodes, listing, addresses, events } := ⟨_, _, _, _, rfl, ho⟩
    rw [generate_cons, generate_cons]
    cases t.kind with
    | process | endProcess =>
      simp only [reopenProcess_eq, recloseProcess_eq]
      apply hab.update
      intro x
      exact ⟨_, _, _, _, rfl, ho⟩
    | instruction =>
      cases Mnemonic.ofName? t.text with
      | none => exact ⟨hab, rfl⟩
      | some m =>
        dsimp only
        rw [encode_eq, encode_eq]
        exact hab.update fun i => hemit i.word
    | pseudo =>
      cases PseudoOp.ofName? t.text with
      | none => exact ⟨hab, rfl⟩
      | some op => exact hexpand op
    | _ => exact ⟨hab, rfl⟩

end SameCode

/-- A step that depends on the code part of a line only and passes over lines without code. -/
structure Layoutless (step : Line → Assembly → Outcome) : Prop where
  same {l k : Line} {a b : Assembly} (hlk : Statement.code l.text = Statement.code k.text)
    (h : SameCode a b) : SameOutcome (step l a) (step k b)
  blank {l : Line} {a b : Assembly} (hl : l.hasCode = false) (h : SameCode a b) :
    SameOutcome (step l a) (b, none)

theorem layoutless_firstPass : Layoutless firstPass where
  same {l k a b} hlk h := by
    have hr := h.visit l k
    rw [firstPass_eq, firstPass_eq, Statement.ofLine?_congr hlk]
    cases Statement.ofLine? k.text with
    | none => exact ⟨hr.list l k _ _ _ _, rfl⟩
    | some s =>
      obtain ⟨c, d, f, hcd, hc, hd⟩ := (hr.defineLabels s.labels).exists_eq
      dsimp only
      rw [hc, hd]
      cases f with
      | none => exact hcd.declare l k s.body
      | some f => exact ⟨hcd, rfl⟩
  blank {l a b} hl h := by
    rw [firstPass_eq, Line.ofLine?_of_not_hasCode hl]
    obtain ⟨opcodes, listing, addresses, events, rfl, ho⟩ := h
    exact ⟨⟨_, _, _, _, rfl, ho⟩, rfl⟩

theorem layoutless_secondPass : Layoutless secondPass where
  same {l k a b} hlk h := by
    have hr := h.record (.line 2 l) (.line 2 k)
    rw [secondPass_eq, secondPass_eq, Statement.ofLine?_congr hlk]
    cases Statement.ofLine? k.text with
    | none => exact ⟨hr, rfl⟩
    | some s => exact hr.generate l k s.body
  blank {l a b} hl h := by
    rw [secondPass_eq, Line.ofLine?_of_not_hasCode hl]
    obtain ⟨opcodes, listing, addresses, events, rfl, ho⟩ := h
    exact ⟨⟨_, _, _, _, rfl, ho⟩, rfl⟩

/-- Both passes stop nowhere, or with the same fault at the same place among these lines. -/
inductive SameStop (xs ys : List Line) :
    Option (Line × Fault) → Option (Line × Fault) → Prop where
  | none : SameStop xs ys none none
  | fault {i : Nat} {l k : Line} {f : Fault} (hl : xs[i]? = some l) (hk : ys[i]? = some k) :
      SameStop xs ys (some (l, f)) (some (k, f))

namespace Layoutless

variable {step : Line → Assembly → Outcome} {a b : Assembly} {xs ys : List Line}

/-- Lines without code can be left out. -/
theorem runLines_filter (hs : Layoutless step) (lines : List Line) (h : SameCode a b) :
    SameOutcome (runLines step lines a) (runLines step (lines.filter Line.hasCode) b) := by
  induction lines generalizing a b with
  | nil => exact ⟨h, rfl⟩
  | cons l ls ih =>
    by_cases hl : l.hasCode = true
    · rw [List.filter_cons_of_pos hl]
      obtain ⟨c, d, f, hcd, hc, hd⟩ := (hs.same (l := l) (k := l) rfl h).exists_eq
      rw [runLines_cons, runLines_cons, hc, hd]
      cases f with
      | none => exact ih hcd
      | some f => exact ⟨hcd, rfl⟩
    · rw [List.filter_cons_of_neg hl]
      obtain ⟨hcb, hnone⟩ := hs.blank (Bool.eq_false_iff.mpr hl) h
      rw [runLines_cons, show step l a = ((step l a).1, none) from Prod.ext rfl hnone]
      exact ih hcb

/-- Lines with the same code are passed in step. -/
theorem runLines_forall₂ (hs : Layoutless step) (h : SameCode a b)
    (hxy : List.Forall₂ (fun l k => Statement.code l.text = Statement.code k.text) xs ys) :
    SameCode (runLines step xs a).1 (runLines step ys b).1 ∧
      SameStop xs ys (runLines step xs a).2 (runLines step ys b).2 := by
  induction hxy generalizing a b with
  | nil => exact ⟨h, .none⟩
  | @cons l k ls ks hlk _ ih =>
    obtain ⟨c, d, f, hcd, hc, hd⟩ := (hs.same hlk h).exists_eq
    rw [runLines_cons, runLines_cons, hc, hd]
    cases f with
    | some f => exact ⟨hcd, .fault (i := 0) rfl rfl⟩
    | none =>
      obtain ⟨hsame, hstop⟩ := ih hcd
      refine ⟨hsame, ?_⟩
      generalize (runLines step ls c).2 = p at hstop
      generalize (runLines step ks d).2 = q at hstop
      cases hstop with
      | none => exact .none
      | @fault i _ _ _ hl hk => exact .fault (i := i + 1) hl hk

theorem runLines_same (hs : Layoutless step) {xs ys : List Text} (h : SameCode a b)
    (hxy : Source.codes xs = Source.codes ys) :
    ∃ c d s t, SameCode c d ∧ SameStop (Source.codeLines xs) (Source.codeLines ys) s t ∧
      runLines step (Line.ofTexts xs) a = (c, s) ∧ runLines step (Line.ofTexts ys) b = (d, t) := by
  obtain ⟨hx, hxs⟩ := hs.runLines_filter (Line.ofTexts xs) (SameCode.refl a)
  obtain ⟨hy, hys⟩ := hs.runLines_filter (Line.ofTexts ys) (SameCode.refl b)
  obtain ⟨hsame, hstop⟩ := hs.runLines_forall₂ h (Source.forall₂_codeLines hxy)
  refine ⟨(runLines step (Line.ofTexts xs) a).1, (runLines step (Line.ofTexts ys) b).1,
    (runLines step (Line.ofTexts xs) a).2, (runLines step (Line.ofTexts ys) b).2,
    hx.trans (hsame.trans hy.symm), ?_, rfl, rfl⟩
  rw [hxs, hys]
  exact hstop

end Layoutless

/-- Results that differ in line numbers, texts and the listing only: programs with the same
contents, the same fault at lines that correspond, or the same fault of the whole source. -/
inductive SameResult (xs ys : List Line) :
    Except Diagnostic Program → Except Diagnostic Program → Prop where
  | program {p q : Program}
      (opcodes : p.opcodes.map Opcode.content = q.opcodes.map Opcode.content)
      (data : p.data = q.data) (registers : p.registers = q.registers)
      (starts : p.starts = q.starts) (sequence : p.sequence = q.sequence)
      (processCount : p.processCount = q.processCount) : SameResult xs ys (.ok p) (.ok q)
  | line {i : Nat} {l k : Line} {f : Fault} (hl : xs[i]? = some l) (hk : ys[i]? = some k) :
      SameResult xs ys (.error (.line l f)) (.error (.line k f))
  | whole {f : Fault} : SameResult xs ys (.error (.program f)) (.error (.program f))

theorem SameCode.finish {a b : Assembly} (h : SameCode a b) (xs ys : List Line) :
    SameCode a.finish.1 b.finish.1 ∧ SameResult xs ys a.finish.2 b.finish.2 := by
  obtain ⟨opcodes, listing, addresses, events, rfl, ho⟩ := h
  rw [Assembly.finish_eq, Assembly.finish_eq]
  cases a.processes.checkCapacity with
  | error f => exact ⟨⟨_, _, _, _, rfl, ho⟩, .whole⟩
  | ok u => exact ⟨⟨_, _, _, _, rfl, ho⟩, .program ho.symm rfl rfl rfl rfl rfl⟩

theorem run_same (constants : Constants) {xs ys : List Text}
    (h : Source.codes xs = Source.codes ys) :
    SameCode (run constants (Line.ofTexts xs)).1 (run constants (Line.ofTexts ys)).1 ∧
      SameResult (Source.codeLines xs) (Source.codeLines ys) (run constants (Line.ofTexts xs)).2
        (run constants (Line.ofTexts ys)).2 := by
  have hstart : SameCode (initial constants (Line.ofTexts xs).length)
      (initial constants (Line.ofTexts ys).length) := ⟨_, _, _, _, rfl, rfl⟩
  obtain ⟨one, one', s, t, hone, hstop, hx, hy⟩ := layoutless_firstPass.runLines_same hstart h
  rw [run_eq, run_eq, hx, hy]
  cases hstop with
  | fault hl hk => exact ⟨hone, .line hl hk⟩
  | none =>
    dsimp only
    rw [hone.processes]
    cases checkProcessCount one'.processes with
    | error f => exact ⟨hone, .whole⟩
    | ok u =>
      obtain ⟨two, two', s, t, htwo, hstop, hx, hy⟩ :=
        layoutless_secondPass.runLines_same hone.restart h
      dsimp only
      rw [hx, hy]
      cases hstop with
      | fault hl hk => exact ⟨htwo, .line hl hk⟩
      | none => exact htwo.finish _ _

end Assembly

/-- Sources with the same code parts are assembled alike. -/
theorem codes_determine {as bs : Assembler} {s t : Text} {xs ys : List Text}
    (hc : as.constants = bs.constants) (hs : Text.lines? s = some xs) (ht : Text.lines? t = some ys)
    (h : Source.codes xs = Source.codes ys) :
    (as.assemble s).1.symbols = (bs.assemble t).1.symbols ∧
      (as.assemble s).1.processes = (bs.assemble t).1.processes ∧
      Assembly.SameResult (Source.codeLines xs) (Source.codeLines ys) (as.assemble s).2.result
        (bs.assemble t).2.result := by
  obtain ⟨hsame, hresult⟩ := Assembly.run_same bs.constants h
  rw [as.assemble_of_lines hs, bs.assemble_of_lines ht, hc]
  exact ⟨hsame.symbols, hsame.processes, hresult⟩

/-- The sample with a comment before each line and another one behind it. -/
def Source.commented : List Text :=
  Source.sample.flatMap fun t =>
    [("  ; next" : Text), ("\t" : Text) ++ t ++ ("  ; done; " : Text)]

theorem codes_determine_commented :
    Text.lines? (Source.text Source.sample) = some Source.sample ∧
      Text.lines? (Source.text Source.commented) = some Source.commented ∧
      ∃ p q, (({} : Assembler).assemble (Source.text Source.sample)).2.result = .ok p ∧
        (({} : Assembler).assemble (Source.text Source.commented)).2.result = .ok q ∧
        p.opcodes.map Opcode.content = q.opcodes.map Opcode.content := by
  have hs : Text.lines? (Source.text Source.sample) = some Source.sample := by decide +kernel
  have ht : Text.lines? (Source.text Source.commented) = some Source.commented := by decide +kernel
  have hcodes : Source.codes Source.sample = Source.codes Source.commented := by decide +kernel
  refine ⟨hs, ht, ?_⟩
  obtain ⟨a, p, hp⟩ := Source.run_sample
  have hconstants : ({} : Assembler).constants = ({} : Assembler).constants := rfl
  obtain ⟨-, -, hresult⟩ := codes_determine hconstants hs ht hcodes
  have hok : (({} : Assembler).assemble (Source.text Source.sample)).2.result = .ok p :=
    (Assembler.result_of_lines hs).trans (congrArg Prod.snd hp)
  rw [hok] at hresult
  generalize hq : (({} : Assembler).assemble (Source.text Source.commented)).2.result = r at hresult
  cases hresult with
  | program hopcodes => exact ⟨_, _, hok, rfl, hopcodes⟩

end BarrelAsm
