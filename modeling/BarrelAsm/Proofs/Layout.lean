import BarrelAsm.Proofs.Registry
import BarrelAsm.Proofs.Step
import BarrelAsm.Proofs.Word
import Mathlib.Algebra.GroupWithZero.Nat

/-! Where the words of a line go and which process it is in, read off the source alone. Both passes
follow this layout. -/
namespace BarrelAsm

namespace Line

/-- The labels that a line starts with. -/
def labels (l : Line) : List Text := (Statement.ofLine? l.text).elim [] Statement.labels

/-- The tokens behind the labels. -/
def body (l : Line) : List Token := (Statement.ofLine? l.text).elim [] Statement.body

theorem labels_of_some {l : Line} {s : Statement} (h : Statement.ofLine? l.text = some s) :
    l.labels = s.labels := by
  rw [labels, h]
  rfl

theorem body_of_some {l : Line} {s : Statement} (h : Statement.ofLine? l.text = some s) :
    l.body = s.body := by
  rw [body, h]
  rfl

theorem labels_of_none {l : Line} (h : Statement.ofLine? l.text = none) : l.labels = [] := by
  rw [labels, h]
  rfl

theorem body_of_none {l : Line} (h : Statement.ofLine? l.text = none) : l.body = [] := by
  rw [body, h]
  rfl

theorem exists_statement {l : Line} {t : Token} {ts : List Token} (h : l.body = t :: ts) :
    ∃ s, Statement.ofLine? l.text = some s ∧ s.labels = l.labels ∧ s.body = t :: ts := by
  cases hs : Statement.ofLine? l.text with
  | none =>
    rw [body_of_none hs] at h
    cases h
  | some s => exact ⟨s, rfl, (labels_of_some hs).symm, (body_of_some hs).symm.trans h⟩

/-- The number of words that a line stands for. -/
def size (l : Line) : Nat :=
  match l.body with
  | [] => 0
  | t :: _ =>
    match t.kind with
    | .instruction => 1
    | .pseudo => Assembly.pseudoSize t.text
    | _ => 0

/-- The name of the process that a line opens. -/
def opens? (l : Line) : Option Text :=
  match l.body with
  | [] => none
  | t :: ts => if t.kind = .process then (Statement.processName ts).1.toOption else none

/-- Whether a line closes a process. -/
def closes (l : Line) : Bool :=
  match l.body with
  | [] => false
  | t :: _ => t.kind = .endProcess

theorem size_of_nil {l : Line} (h : l.body = []) : l.size = 0 := by
  simp [size, h]

/-- The process behind a line. -/
def processAfter (process : Option Text) (l : Line) : Option Text :=
  if l.closes then none else l.opens?.or process

theorem processAfter_of_nil {l : Line} (h : l.body = []) (p : Option Text) :
    l.processAfter p = p := by
  simp [processAfter, opens?, closes, h]

/-- Lines with the numbers from 1 on. -/
def Numbered (lines : List Line) : Prop := ∀ i l, lines[i]? = some l → l.number = i + 1

theorem Numbered.of_prefix {pre lines : List Line} (h : Numbered lines) (hp : pre <+: lines) :
    Numbered pre := by
  intro i l hi
  obtain ⟨post, rfl⟩ := hp
  refine h i l ?_
  rw [List.getElem?_append_left (List.getElem?_eq_some_iff.mp hi).1]
  exact hi

theorem Numbered.number_eq {pre lines : List Line} {line : Line} (h : Numbered lines)
    (hp : pre ++ [line] <+: lines) : line.number = pre.length + 1 :=
  h.of_prefix hp pre.length line (by simp)

theorem numbered_ofTexts (texts : List Text) : Numbered (ofTexts texts) := by
  intro i l hi
  unfold ofTexts at hi
  rw [List.getElem?_map, List.getElem?_zipIdx] at hi
  obtain ⟨t, ht, rfl⟩ := Option.map_eq_some_iff.mp hi
  obtain ⟨u, -, rfl⟩ := Option.map_eq_some_iff.mp ht
  exact Nat.add_comm 1 i

end Line

namespace Source

/-- The number of words that lines stand for. -/
def size (lines : List Line) : Nat := (lines.map Line.size).sum

/-- The process that a line behind these lines is in. -/
def process (lines : List Line) : Option Text := lines.foldl Line.processAfter none

@[simp] theorem size_nil : size [] = 0 := rfl

@[simp] theorem size_cons (l : Line) (ls : List Line) : size (l :: ls) = l.size + size ls := by
  simp [size]

@[simp] theorem size_append (xs ys : List Line) : size (xs ++ ys) = size xs + size ys := by
  simp [size]

@[simp] theorem process_nil : process [] = none := rfl

@[simp] theorem process_concat (ls : List Line) (l : Line) :
    process (ls ++ [l]) = l.processAfter (process ls) := by
  simp [process]

theorem exists_prefix_concat {α : Type} {R : List α → α → Prop} {xs : List α} {x : α} :
    (∃ pre y, pre ++ [y] <+: xs ++ [x] ∧ R pre y) ↔
      (∃ pre y, pre ++ [y] <+: xs ∧ R pre y) ∨ R xs x := by
  simp only [List.prefix_concat_iff]
  constructor
  · rintro ⟨pre, y, he | hp, hr⟩
    · obtain ⟨rfl, hl⟩ := List.append_inj' he rfl
      cases hl
      exact .inr hr
    · exact .inl ⟨pre, y, hp, hr⟩
  · rintro (⟨pre, y, hp, hr⟩ | hr)
    · exact ⟨pre, y, .inr hp, hr⟩
    · exact ⟨xs, x, .inl rfl, hr⟩

end Source

namespace Assembly

variable {a b c : Assembly} {line : Line} {lines : List Line}

/-- The place of `b` is that of `a` moved on by a line. -/
def Moves (line : Line) (a b : Assembly) : Prop :=
  b.pc = a.pc + line.size ∧ b.process = line.processAfter a.process

theorem Declared.moves (h : Declared a line line.body b) : Moves line a b := by
  generalize hb : line.body = ts at h
  cases h <;>
    simp_all [Moves, Line.size, Line.processAfter, Line.opens?, Line.closes, addRegister, addData,
      list, Except.toOption]

theorem scratchFor_place {p : Pseudo} {r : Register} (h : a.scratchFor line p = (b, .ok r)) :
    b.pc = a.pc ∧ b.process = a.process ∧ b.opcodes = a.opcodes := by
  rw [scratchFor_eq h]
  exact ⟨rfl, rfl, rfl⟩

theorem pseudoSize_of_read {s : Scope} {name : Text} {op : PseudoOp} {p : Pseudo}
    {ts rest : List Token} (ho : PseudoOp.ofName? name = some op)
    (hp : Pseudo.read s op ts = (.ok p, rest)) (r : Register) :
    (p.words r).length = pseudoSize name := by
  rw [Pseudo.length_words, Pseudo.op_of_read hp, pseudoSize, ho]
  rfl

theorem Generated.moves (h : Generated a line line.body b) : Moves line a b := by
  generalize hb : line.body = ts at h
  cases h with
  | pseudo hk ho hp hs =>
    obtain ⟨hpc, hpr, -⟩ := scratchFor_place hs
    simp [Moves, Line.size, Line.processAfter, Line.opens?, Line.closes, hb, hk, emitExpansion, hpc,
      hpr, pseudoSize_of_read ho hp]
  | declaration hk =>
    rcases hk with hk | hk | hk <;>
      simp [Moves, Line.size, Line.processAfter, Line.opens?, Line.closes, hb, hk]
  | _ =>
    simp_all [Moves, Line.size, Line.processAfter, Line.opens?, Line.closes, emit, list,
      Except.toOption]

theorem moves_of_nil (h : line.body = []) (hpc : b.pc = a.pc) (hp : b.process = a.process) :
    Moves line a b := by
  rw [Moves, Line.size_of_nil h, Line.processAfter_of_nil h]
  exact ⟨hpc, hp⟩

theorem firstPass_moves (h : firstPass line a = (b, none)) : Moves line a b := by
  rcases firstPass_ok h with ⟨hn, rfl⟩ | ⟨s, c, hs, hc, hb⟩
  · exact moves_of_nil (Line.body_of_none hn) rfl rfl
  · rw [← Line.body_of_some hs] at hb
    have hm := hb.moves
    rw [defineLabels_eq hc] at hm
    exact hm

theorem secondPass_moves (h : secondPass line a = (b, none)) : Moves line a b := by
  rcases secondPass_ok h with ⟨hn, rfl⟩ | ⟨s, hs, hb⟩
  · exact moves_of_nil (Line.body_of_none hn) rfl rfl
  · rw [← Line.body_of_some hs] at hb
    exact hb.moves

/-- A run from the start of the program follows the layout of the source. -/
theorem runLines_place {step : Line → Assembly → Outcome}
    (hstep : ∀ line a b, step line a = (b, none) → Moves line a b)
    (hpc : a.pc = 0) (hp : a.process = none) (h : runLines step lines a = (b, none)) :
    b.pc = Source.size lines ∧ b.process = Source.process lines := by
  refine runLines_induction (P := fun ls x => x.pc = Source.size ls ∧ x.process = Source.process ls)
    h ⟨hpc, hp⟩ ?_
  intro pre line c d _ _ ⟨hc, hcp⟩ hd
  obtain ⟨hd, hdp⟩ := hstep line c d hd
  rw [hd, hdp, hc, hcp, Source.process_concat]
  simp

theorem Declared.processes (h : Declared a line line.body b) :
    (line.opens? = none ∧ b.processes = a.processes) ∨
      ∃ name, line.opens? = some name ∧ a.process = none ∧
        a.processes.register name a.pc = .ok b.processes := by
  generalize hb : line.body = ts at h
  cases h with
  | opening hk hp hn hs =>
    exact .inr ⟨_, by simp [Line.opens?, hb, hk, hn, Except.toOption], hp, hs⟩
  | nothing => exact .inl ⟨by simp [Line.opens?, hb], rfl⟩
  | register hk => exact .inl ⟨by simp [Line.opens?, hb, hk], rfl⟩
  | const hk => exact .inl ⟨by simp [Line.opens?, hb, hk], rfl⟩
  | data hk => exact .inl ⟨by simp [Line.opens?, hb, hk], rfl⟩
  | closing hk => exact .inl ⟨by simp [Line.opens?, hb, hk], rfl⟩
  | instruction hk => exact .inl ⟨by simp [Line.opens?, hb, hk], rfl⟩
  | pseudo hk => exact .inl ⟨by simp [Line.opens?, hb, hk], rfl⟩

/-- The first pass registers a process where a line opens one. -/
theorem firstPass_processes (h : firstPass line a = (b, none)) :
    (line.opens? = none ∧ b.processes = a.processes) ∨
      ∃ name, line.opens? = some name ∧ a.process = none ∧
        a.processes.register name a.pc = .ok b.processes := by
  rcases firstPass_ok h with ⟨hn, rfl⟩ | ⟨s, c, hs, hc, hb⟩
  · exact .inl ⟨by simp [Line.opens?, Line.body_of_none hn], rfl⟩
  · rw [← Line.body_of_some hs] at hb
    have hp := hb.processes
    rw [defineLabels_eq hc] at hp
    exact hp

theorem firstPass_wellFormed {constants : Constants} {n : Nat}
    (h : runLines firstPass lines (initial constants n) = (a, none)) :
    a.processes.WellFormed := by
  refine runLines_induction (P := fun _ x => x.processes.WellFormed) h Registry.wellFormed_empty ?_
  intro pre line c d _ _ hc hd
  rcases firstPass_processes hd with ⟨-, he⟩ | ⟨name, -, -, hr⟩
  · rw [he]
    exact hc
  · exact hc.register hr

theorem Generated.processes {ts : List Token} (h : Generated a line ts b) :
    b.processes = a.processes := by
  cases h with
  | pseudo hk ho hp hs =>
    rcases scratchFor_ok hs with ⟨-, rfl⟩ | ⟨-, hs⟩
    · rfl
    · rcases scratch_ok hs with ⟨_, -, rfl, -⟩ | ⟨symbols, -, -, rfl, -⟩ <;> rfl
  | _ => rfl

theorem secondPass_processes (h : runLines secondPass lines a = (b, none)) :
    b.processes = a.processes := by
  refine runLines_induction (P := fun _ x => x.processes = a.processes) h rfl ?_
  intro pre line c d _ _ hc hd
  rcases secondPass_ok hd with ⟨-, rfl⟩ | ⟨s, -, hg⟩
  · exact hc
  · exact hg.processes.trans hc

theorem firstPass_place {constants : Constants} {n : Nat}
    (h : runLines firstPass lines (initial constants n) = (a, none)) :
    a.pc = Source.size lines ∧ a.process = Source.process lines :=
  runLines_place (fun _ _ _ => firstPass_moves) rfl rfl h

theorem secondPass_place (h : runLines secondPass lines a.restart = (b, none)) :
    b.pc = Source.size lines ∧ b.process = Source.process lines :=
  runLines_place (fun _ _ _ => secondPass_moves) rfl rfl h

end Assembly

/-- A source with seven processes, one of them in two parts. -/
def Source.sample : List Text :=
  [".const five 5", ".reg n", ".reg k five", ".data text 'ab'", "process main",
    "top: one: ldi n, 3", "loop: djnz n, loop", "jlt n, k, top", "last: endprocess",
    "process worker.a", "sub n, n, k ; scratch", "endprocess", "process worker.b", "again: nop",
    "jmp again", "endprocess", "process p3", "endprocess", "process p4", "endprocess",
    "process p5", "endprocess", "process p6", "endprocess", "process p7", "endprocess"]

/-- Seven processes that do nothing. -/
def Source.idles : List Text :=
  ["process p1", "endprocess", "process p2", "endprocess", "process p3", "endprocess", "process p4",
    "endprocess", "process p5", "endprocess", "process p6", "endprocess", "process p7",
    "endprocess"]

/-- Lines as a text. -/
def Source.text (texts : List Text) : Text := texts.flatMap (· ++ [10])

theorem Source.run_sample :
    ∃ a program, Assembly.run {} (Line.ofTexts Source.sample) = (a, .ok program) :=
  Assembly.run_of_isOk (by decide +kernel)

end BarrelAsm
