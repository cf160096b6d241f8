import BarrelAsm.Proofs.Block
import BarrelAsm.Proofs.Site

/-! How the process blocks of a program lie: one behind the other, with the labels inside and the
constants outside, and one slot of the registry for each. What is not checked is whether the last
block is closed. -/
namespace BarrelAsm

/-- A statement at one end of a process block. -/
inductive Mark where
  | opening
  | closing
deriving DecidableEq, Repr

namespace Line

/-- The end of a block that the statement of a line marks, whatever its operands are. -/
def mark? (l : Line) : Option Mark :=
  match l.body with
  | [] => none
  | t :: _ =>
    match t.kind with
    | .process => some .opening
    | .endProcess => some .closing
    | _ => none

/-- What a line makes of the process that it is in: it keeps it, opens one where there is none, or
closes it. -/
inductive Turns (l : Line) : Option Text → Option Text → Prop where
  | keep {process : Option Text} (hm : l.mark? = none) (ho : l.opens? = none) :
      Turns l process process
  | opening {name : Text} (hm : l.mark? = some .opening) (ho : l.opens? = some name) :
      Turns l none (some name)
  | closing {name : Text} (hm : l.mark? = some .closing) (ho : l.opens? = none) :
      Turns l (some name) none

theorem Turns.mark?_eq_opening_iff {l : Line} {p q : Option Text} (h : l.Turns p q) :
    l.mark? = some .opening ↔ l.opens?.isSome := by
  cases h with
  | keep hm ho => simp [hm, ho]
  | opening hm ho => simp [hm, ho]
  | closing hm ho => simp [hm, ho]

end Line

namespace Source

/-- The process and endprocess statements of a source. -/
def marks (lines : List Line) : List Mark := lines.filterMap Line.mark?

/-- The statements of `n` complete blocks. -/
def pairs (n : Nat) : List Mark := (List.replicate n [Mark.opening, .closing]).flatten

theorem marks_concat (ls : List Line) (l : Line) :
    marks (ls ++ [l]) = marks ls ++ l.mark?.toList := by
  unfold marks
  rw [List.filterMap_append]
  cases h : l.mark? <;> simp [h]

theorem pairs_succ (n : Nat) : pairs (n + 1) = pairs n ++ [.opening, .closing] := by
  simp [pairs, List.replicate_succ']

theorem length_pairs (n : Nat) : (pairs n).length = 2 * n := by
  simp [pairs, Nat.mul_comm]

/-- The names that process statements give, each with the address of the next word. -/
def openings (lines : List Line) : List (Text × Int) :=
  (sites lines).filterMap fun s => s.line.opens?.map fun name => (name, (s.address : Int))

theorem openings_concat (ls : List Line) (l : Line) :
    openings (ls ++ [l]) =
      openings ls ++ (l.opens?.map fun name => (name, (size ls : Int))).toList := by
  unfold openings
  rw [sites_concat, List.filterMap_append]
  cases h : l.opens? <;> simp [h]

/-- All blocks are closed exactly if no process is left open at the end. -/
theorem forall_closing_iff (lines : List Line) :
    (∀ b : Block lines, b.closing.isSome) ↔ process lines = none := by
  constructor
  · intro h
    cases hp : process lines with
    | none => rfl
    | some name =>
      obtain ⟨before, opening, tail, rfl, ho, htail⟩ := exists_opening hp
      have hopen := h ⟨name, before, opening, tail, none, [], by simp, ho, htail, rfl⟩
      cases hopen
  · intro h b
    cases hc : b.closing with
    | some c => rfl
    | none =>
      have hends := b.ends
      have hlines := b.lines_eq
      rw [hc] at hends hlines
      rw [show b.after = [] from hends] at hlines
      simp only [Option.toList_none, List.append_nil] at hlines
      rw [hlines, ← List.singleton_append, ← List.append_assoc, process_append_plain b.plain,
        process_concat, Line.processAfter, Line.closes_of_opens b.opens, b.opens] at h
      cases h

end Source

/-- Blocks that follow each other before a line do so behind it; the last one may be open. -/
theorem Line.Turns.marks {l : Line} {p q : Option Text} (h : l.Turns p q) {ms : List Mark}
    (hms : ∃ n, ms = Source.pairs n ++ p.elim [] fun _ => [.opening]) :
    ∃ n, ms ++ l.mark?.toList = Source.pairs n ++ q.elim [] fun _ => [.opening] := by
  obtain ⟨n, rfl⟩ := hms
  cases h with
  | keep hm => exact ⟨n, by rw [hm]; simp⟩
  | opening hm => exact ⟨n, by rw [hm]; simp⟩
  | closing hm => exact ⟨n + 1, by rw [hm, Source.pairs_succ]; simp⟩

namespace Assembly

variable {a b : Assembly} {line : Line} {lines : List Line} {constants : Constants} {n : Nat}

theorem Declared.turns (h : Declared a line line.body b) : line.Turns a.process b.process := by
  generalize hb : line.body = ts at h
  cases h with
  | nothing => exact .keep (by simp [Line.mark?, hb]) (by simp [Line.opens?, hb])
  | register hk | const hk | data hk | instruction hk | pseudo hk =>
    exact .keep (by simp [Line.mark?, hb, hk]) (by simp [Line.opens?, hb, hk])
  | opening hk hp hn =>
    rw [hp]
    refine .opening (by simp [Line.mark?, hb, hk]) ?_
    simp [Line.opens?, hb, hk, hn, Except.toOption]
  | closing hk hp =>
    rw [hp]
    exact .closing (by simp [Line.mark?, hb, hk]) (by simp [Line.opens?, hb, hk])

theorem firstPass_turns (h : firstPass line a = (b, none)) : line.Turns a.process b.process := by
  rcases firstPass_ok h with ⟨hn, rfl⟩ | ⟨s, c, hs, hc, hb⟩
  · have hbody := Line.body_of_none hn
    exact .keep (by simp [Line.mark?, hbody]) (by simp [Line.opens?, hbody])
  · rw [← Line.body_of_some hs] at hb
    have ht := hb.turns
    rw [defineLabels_eq hc] at ht
    exact ht

/-- Blocks follow each other; the last one may be open. -/
theorem firstPass_marks (h : runLines firstPass lines (initial constants n) = (a, none)) :
    ∃ k, Source.marks lines = Source.pairs k ++ a.process.elim [] fun _ => [.opening] := by
  refine runLines_induction (P := fun ls x =>
    ∃ k, Source.marks ls = Source.pairs k ++ x.process.elim [] fun _ => [.opening]) h ⟨0, rfl⟩ ?_
  intro pre line c d _ _ hc hd
  rw [Source.marks_concat]
  exact (firstPass_turns hd).marks hc

theorem mark?_eq_opening_iff (h : runLines firstPass lines (initial constants n) = (a, none))
    (hl : line ∈ lines) : line.mark? = some .opening ↔ line.opens?.isSome := by
  obtain ⟨pre, post, rfl⟩ := List.append_of_mem hl
  have hp : pre ++ [line] <+: pre ++ line :: post := ⟨post, by simp⟩
  obtain ⟨c, d, -, -, hd, -⟩ := runLines_at_ok hp h
  exact (firstPass_turns hd).mark?_eq_opening_iff

/-- The registry has one entry for each process statement. -/
theorem firstPass_openings (h : runLines firstPass lines (initial constants n) = (a, none)) :
    a.processes.entries.Perm (Source.openings lines) := by
  refine runLines_induction (P := fun ls x => x.processes.entries.Perm (Source.openings ls)) h
    (List.Perm.refl _) ?_
  intro pre line c d _ hrun hc hd
  obtain ⟨hpc, -⟩ := firstPass_place hrun
  rw [Source.openings_concat]
  rcases firstPass_processes hd with ⟨ho, he⟩ | ⟨name, ho, -, hr⟩
  · rw [ho, he]
    simpa using hc
  · rw [ho, ← hpc]
    exact ((firstPass_wellFormed hrun).entries_register_perm hr).trans (hc.append_right _)

theorem process_none_of_const (h : runLines firstPass lines (initial constants n) = (a, none))
    {pre : List Line} (hp : pre ++ [line] <+: lines) {t : Token} {ts : List Token}
    (hb : line.body = t :: ts) (hk : t.kind = .constDecl) : Source.process pre = none := by
  obtain ⟨c, d, -, hc, hd, -⟩ := runLines_at_ok hp h
  obtain ⟨-, hcp⟩ := firstPass_place hc
  rw [← hcp]
  rcases firstPass_ok hd with ⟨hn, -⟩ | ⟨s, e, hs, he, hdecl⟩
  · rw [Line.body_of_none hn] at hb
    cases hb
  · rw [← Line.body_of_some hs, hb] at hdecl
    cases hdecl with
    | const _ hnone =>
      rw [defineLabels_eq he] at hnone
      exact hnone
    | register hk' | data hk' | opening hk' | closing hk' | instruction hk' | pseudo hk' =>
      rw [hk] at hk'
      cases hk'

theorem count_of_checkProcessCount {r : Registry} (h : checkProcessCount r = .ok ()) :
    7 ≤ r.count := by
  unfold checkProcessCount at h
  obtain ⟨hle, -⟩ := except_guard_ok h
  exact Nat.le_of_not_lt hle

end Assembly

/-- In a program the process and endprocess statements make blocks one behind the other, all of
them complete if no process is left open at the end of the source. Labels are inside blocks and
constants outside, and the slots of the registry are the process statements, which name at least
seven processes. -/
theorem blocks_nested {constants : Constants} {texts : List Text} {a : Assembly} {program : Program}
    (h : Assembly.run constants (Line.ofTexts texts) = (a, .ok program)) :
    let lines := Line.ofTexts texts
    (∃ n, Source.marks lines =
      Source.pairs n ++ (Source.process lines).elim [] fun _ => [.opening]) ∧
    ((∀ b : Block lines, b.closing.isSome) ↔ Source.process lines = none) ∧
    (∀ pre line, pre ++ [line] <+: lines → line.labels ≠ [] →
      ∃ b : Block lines, b.Holds pre line) ∧
    (∀ pre line t ts, pre ++ [line] <+: lines → line.body = t :: ts → t.kind = .constDecl →
      ∀ b : Block lines, ¬b.Holds pre line) ∧
    (∀ line ∈ lines, line.mark? = some .opening ↔ line.opens?.isSome) ∧
    a.processes.entries.Perm (Source.openings lines) ∧
    (a.processes.processes.map Process.name).Nodup ∧ 7 ≤ a.processes.processes.length ∧
    ∀ top, top ∈ a.processes.processes.map Process.name ↔
      ∃ o ∈ Source.openings lines, Text.before 46 o.1 = top := by
  intro lines
  obtain ⟨one, two, hone, hcount, htwo, -, -, rfl⟩ := Assembly.run_ok h
  obtain ⟨-, hprocess⟩ := Assembly.firstPass_place hone
  have hwf : one.processes.finalize.WellFormed := (Assembly.firstPass_wellFormed hone).finalize
  have hperm : one.processes.finalize.entries.Perm (Source.openings lines) :=
    (Registry.entries_finalize_perm _).trans (Assembly.firstPass_openings hone)
  have htables : two.processes = one.processes.finalize := Assembly.secondPass_processes htwo
  refine ⟨?_, Source.forall_closing_iff lines, ?_, ?_, ?_, ?_⟩
  · rw [← hprocess]
    exact Assembly.firstPass_marks hone
  · intro pre line hp hl
    obtain ⟨l, hl⟩ := List.exists_mem_of_ne_nil _ hl
    obtain ⟨name, hname⟩ := Assembly.process_isSome_of_labels hone hp hl
    obtain ⟨b, rfl⟩ := Assembly.exists_block hone ((List.prefix_append _ _).trans hp) hname
    exact ⟨b, Assembly.holds_of_process hone b hp hname⟩
  · intro pre line t ts hp hb hk b hin
    have hnone := Assembly.process_none_of_const hone hp hb hk
    rw [hin.process_eq] at hnone
    cases hnone
  · intro line hl
    exact Assembly.mark?_eq_opening_iff hone hl
  · change two.processes.entries.Perm _ ∧ (two.processes.processes.map Process.name).Nodup ∧
      7 ≤ two.processes.processes.length ∧ ∀ top, top ∈ two.processes.processes.map Process.name ↔ _
    rw [htables]
    refine ⟨hperm, hwf.nodup, ?_, ?_⟩
    · have hlen : one.processes.finalize.processes.length = one.processes.count :=
        List.length_map _
      rw [hlen]
      exact Assembly.count_of_checkProcessCount hcount
    · intro top
      rw [hwf.mem_names_iff]
      simp only [hperm.mem_iff]

theorem blocks_nested_sample :
    ∃ a program, Assembly.run {} (Line.ofTexts Source.sample) = (a, .ok program) ∧
      Source.marks (Line.ofTexts Source.sample) = Source.pairs 8 ∧
      Source.process (Line.ofTexts Source.sample) = none ∧
      a.processes.entries.Perm (List.zip (["main", "worker.a", "worker.b", "p3", "p4", "p5", "p6",
        "p7"] : List Text) [0, 5, 8, 10, 10, 10, 10, 10]) := by
  obtain ⟨a, program, h⟩ := Source.run_sample
  obtain ⟨-, -, -, -, -, hperm, -⟩ := blocks_nested h
  have hopenings : Source.openings (Line.ofTexts Source.sample) =
      List.zip (["main", "worker.a", "worker.b", "p3", "p4", "p5", "p6", "p7"] : List Text)
        [0, 5, 8, 10, 10, 10, 10, 10] := by
    decide +kernel
  exact ⟨a, program, h, by decide +kernel, by decide +kernel, hopenings ▸ hperm⟩

/-- A source with seven processes, the last one without its end. -/
def Source.unclosed : List Text := Source.idles.dropLast ++ [("nop" : Text)]

/-- A program may end inside a process. -/
theorem unclosed_accepted :
    (∃ a program, Assembly.run {} (Line.ofTexts Source.unclosed) = (a, .ok program)) ∧
      ∀ n, Source.marks (Line.ofTexts Source.unclosed) ≠ Source.pairs n := by
  constructor
  · exact Assembly.run_of_isOk (by decide +kernel)
  · intro n h
    have hlen := congrArg List.length h
    rw [Source.length_pairs] at hlen
    have hodd : (Source.marks (Line.ofTexts Source.unclosed)).length = 13 := by decide +kernel
    omega

end BarrelAsm
