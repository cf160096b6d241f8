import BarrelAsm.Proofs.Location

/-! Process blocks of a source. In a source that the first pass gets through, a line in a process is
in a block of that name, and there is only one. -/
namespace BarrelAsm

/-- A line that neither opens nor closes a process. -/
def Line.IsPlain (l : Line) : Prop := l.opens? = none ∧ l.closes = false

/-- The lines from one that opens a process to the one that closes it, or to the end of the source
if there is none. -/
structure Block (lines : List Line) where
  name : Text
  before : List Line
  opening : Line
  inside : List Line
  closing : Option Line
  after : List Line
  lines_eq : lines = before ++ opening :: (inside ++ (closing.toList ++ after))
  opens : opening.opens? = some name
  plain : ∀ l ∈ inside, l.IsPlain
  ends : closing.elim (after = []) fun c => c.closes = true

/-- The line behind `pre` is one of the block, its closing line included. -/
def Block.Holds {lines : List Line} (b : Block lines) (pre : List Line) (line : Line) : Prop :=
  ∃ i, pre = b.before ++ b.opening :: i ∧ i ++ [line] <+: b.inside ++ b.closing.toList

theorem Block.prefix_opening {lines : List Line} (b : Block lines) :
    b.before ++ [b.opening] <+: lines :=
  ⟨_, by rw [List.append_assoc]; exact b.lines_eq.symm⟩

theorem Block.prefix_inside {lines : List Line} (b : Block lines) :
    b.before ++ b.opening :: b.inside <+: lines :=
  ⟨_, by rw [List.append_assoc]; exact b.lines_eq.symm⟩

namespace Line

variable {l : Line} {name : Text}

theorem closes_of_opens (h : l.opens? = some name) : l.closes = false := by
  unfold opens? at h
  split at h
  · cases h
  · rename_i t ts hb
    split_ifs at h with hk
    simp [closes, hb, hk]

end Line

namespace Source

theorem exists_opening {lines : List Line} {name : Text} (h : process lines = some name) :
    ∃ before opening tail, lines = before ++ opening :: tail ∧ opening.opens? = some name ∧
      ∀ l ∈ tail, l.IsPlain := by
  induction lines using List.reverseRecOn with
  | nil => cases h
  | append_singleton ls l ih =>
    rw [process_concat, Line.processAfter] at h
    split_ifs at h with hc
    cases ho : l.opens? with
    | some opened =>
      rw [ho, Option.some_or] at h
      exact ⟨ls, l, [], rfl, by rw [ho, h], by simp⟩
    | none =>
      rw [ho, Option.none_or] at h
      obtain ⟨before, opening, tail, rfl, hopen, htail⟩ := ih h
      refine ⟨before, opening, tail ++ [l], by simp, hopen, ?_⟩
      intro k hk
      rcases List.mem_append.mp hk with hk | hk
      · exact htail k hk
      · rw [List.mem_singleton.mp hk]
        exact ⟨ho, by simpa using hc⟩

theorem exists_plain_append (lines : List Line) :
    ∃ mid rest, lines = mid ++ rest ∧ (∀ l ∈ mid, l.IsPlain) ∧ ∀ l ∈ rest.head?, ¬l.IsPlain := by
  induction lines with
  | nil => exact ⟨[], [], rfl, by simp, by simp⟩
  | cons l ls ih =>
    by_cases hl : l.IsPlain
    · obtain ⟨mid, rest, rfl, hmid, hrest⟩ := ih
      exact ⟨l :: mid, rest, rfl, List.forall_mem_cons.mpr ⟨hl, hmid⟩, hrest⟩
    · exact ⟨[], l :: ls, rfl, by simp, by simpa using hl⟩

theorem process_append_plain {pre mid : List Line} (h : ∀ l ∈ mid, l.IsPlain) :
    process (pre ++ mid) = process pre := by
  induction mid using List.reverseRecOn with
  | nil => rw [List.append_nil]
  | append_singleton ls l ih =>
    obtain ⟨ho, hc⟩ := h l (by simp)
    rw [← List.append_assoc, process_concat, Line.processAfter, ho, hc, Option.none_or,
      ih fun k hk => h k (by simp [hk])]
    rfl

theorem size_mono {pre lines : List Line} (h : pre <+: lines) : size pre ≤ size lines := by
  obtain ⟨post, rfl⟩ := h
  rw [size_append]
  exact Nat.le_add_right _ _

end Source

namespace Assembly

variable {constants : Constants} {n : Nat} {lines : List Line} {a : Assembly} {name : Text}

theorem process_none_of_opens (h : runLines firstPass lines (initial constants n) = (a, none))
    {pre : List Line} {line : Line} (hp : pre ++ [line] <+: lines) (ho : line.opens? = some name) :
    Source.process pre = none := by
  obtain ⟨c, d, -, hc, hd, -⟩ := runLines_at_ok hp h
  obtain ⟨-, hcp⟩ := firstPass_place hc
  rcases firstPass_processes hd with ⟨hno, -⟩ | ⟨m, -, hnone, -⟩
  · rw [ho] at hno
    cases hno
  · rw [← hcp, hnone]

theorem process_isSome_of_labels (h : runLines firstPass lines (initial constants n) = (a, none))
    {pre : List Line} {line : Line} (hp : pre ++ [line] <+: lines) {l : Text}
    (hl : l ∈ line.labels) : ∃ p, Source.process pre = some p := by
  obtain ⟨c, d, -, hc, hd, -⟩ := runLines_at_ok hp h
  obtain ⟨-, hcp⟩ := firstPass_place hc
  rw [← hcp]
  rcases firstPass_ok hd with ⟨hn, -⟩ | ⟨s, e, hs, he, -⟩
  · rw [Line.labels_of_none hn] at hl
    cases hl
  · rw [Line.labels_of_some hs] at hl
    obtain ⟨m, ms, hm⟩ := List.exists_cons_of_ne_nil (List.ne_nil_of_mem hl)
    rw [hm, defineLabels_cons] at he
    split at he
    · rename_i x hx
      obtain ⟨symbols, hf, -⟩ := Outcome.update_ok (defineLabel_eq .. ▸ hx)
      obtain ⟨hsome, -⟩ := except_guard_ok hf
      exact Option.ne_none_iff_exists'.mp (mt Option.isNone_iff_eq_none.mpr hsome)
    · cases he

/-- No two lines open a process of the same name. -/
theorem opens_unique (h : runLines firstPass lines (initial constants n) = (a, none))
    {pre₁ pre₂ : List Line} {l₁ l₂ : Line} (h₁ : pre₁ ++ [l₁] <+: lines)
    (h₂ : pre₂ ++ [l₂] <+: lines) (ho₁ : l₁.opens? = some name) (ho₂ : l₂.opens? = some name) :
    pre₁ ++ [l₁] = pre₂ ++ [l₂] := by
  -- If one stands before the other, its entry is in the registry when the other comes.
  have hlt : ∀ {p q : List Line} {k l : Line}, p ++ [k] <+: q → q ++ [l] <+: lines →
      k.opens? = some name → l.opens? = some name → False := by
    intro p q k l hpq hq hk hl
    obtain ⟨c, d, -, hc, hd, -⟩ := runLines_at_ok hq h
    rcases firstPass_processes hd with ⟨hno, -⟩ | ⟨m, hm, -, hr⟩
    · rw [hl] at hno
      cases hno
    · obtain rfl : name = m := Option.some.inj (hl.symm.trans hm)
      refine (firstPass_wellFormed hc).notMem_entries_of_register hr (Source.size p) ?_
      exact (firstPass_entries hc name _).mpr ⟨p, k, hpq, hk, rfl⟩
  rcases List.prefix_or_prefix_of_prefix h₁ h₂ with hp | hp
  · rcases List.prefix_concat_iff.mp hp with he | hp
    · exact he
    · exact (hlt hp h₂ ho₁ ho₂).elim
  · rcases List.prefix_concat_iff.mp hp with he | hp
    · exact he.symm
    · exact (hlt hp h₁ ho₂ ho₁).elim

/-- The process that a line is in has a block. -/
theorem exists_block (h : runLines firstPass lines (initial constants n) = (a, none))
    {pre : List Line} (hp : pre <+: lines) (hname : Source.process pre = some name) :
    ∃ b : Block lines, b.name = name := by
  obtain ⟨before, opening, tail, rfl, ho, -⟩ := Source.exists_opening hname
  obtain ⟨post, hpost⟩ := hp
  obtain ⟨mid, rest, hrest, hmid, hhead⟩ := Source.exists_plain_append (tail ++ post)
  have hlines : lines = before ++ opening :: (mid ++ rest) := by
    rw [← hpost, ← hrest, List.append_assoc, List.cons_append]
  cases rest with
  | nil => exact ⟨⟨name, before, opening, mid, none, [], by simpa using hlines, ho, hmid, rfl⟩, rfl⟩
  | cons c after =>
    suffices hc : c.closes = true from
      ⟨⟨name, before, opening, mid, some c, after, by simpa using hlines, ho, hmid, hc⟩, rfl⟩
    -- A line that does not close the process could only open one inside it.
    by_contra hc
    have hopens : c.opens? ≠ none := fun hn => hhead c rfl ⟨hn, by simpa using hc⟩
    obtain ⟨m, hm⟩ := Option.ne_none_iff_exists'.mp hopens
    have hprefix : before ++ [opening] ++ mid ++ [c] <+: lines := ⟨after, by simp [hlines]⟩
    have hnone := process_none_of_opens h hprefix hm
    rw [Source.process_append_plain hmid, Source.process_concat, Line.processAfter,
      Line.closes_of_opens ho, ho] at hnone
    cases hnone

/-- A block holds all lines that are in the process of its name. -/
theorem holds_of_process (h : runLines firstPass lines (initial constants n) = (a, none))
    (b : Block lines) {pre : List Line} {line : Line} (hp : pre ++ [line] <+: lines)
    (hname : Source.process pre = some b.name) : b.Holds pre line := by
  obtain ⟨before, opening, tail, rfl, ho, htail⟩ := Source.exists_opening hname
  have hk : before ++ [opening] <+: lines := by
    refine List.IsPrefix.trans ⟨tail ++ [line], ?_⟩ hp
    simp
  obtain ⟨rfl, heq⟩ := List.append_inj' (opens_unique h hk b.prefix_opening ho b.opens) rfl
  cases heq
  refine ⟨tail, rfl, ?_⟩
  have hall : tail ++ [line] <+: b.inside ++ b.closing.toList ++ b.after := by
    obtain ⟨post, hpost⟩ := hp
    exact ⟨post, by simpa using hpost.trans b.lines_eq⟩
  rcases List.prefix_or_prefix_of_prefix hall (List.prefix_append _ _) with hle | hle
  · exact hle
  · rcases List.prefix_concat_iff.mp hle with heq | hle
    · exact heq ▸ List.prefix_refl _
    · -- The closing line would be among plain ones.
      have hends := b.ends
      cases hc : b.closing with
      | none =>
        rw [hc] at hends hall
        rw [show b.after = [] from hends, List.append_nil] at hall
        exact hall
      | some c =>
        rw [hc] at hends hle
        have hplain := htail c (hle.subset (by simp))
        exact absurd (hplain.2.symm.trans hends) Bool.false_ne_true

end Assembly

variable {lines pre : List Line} {line : Line}

theorem Block.Holds.exists_inside {b : Block lines} (h : b.Holds pre line) :
    ∃ i, pre = b.before ++ b.opening :: i ∧ i <+: b.inside := by
  obtain ⟨i, rfl, hi⟩ := h
  refine ⟨i, rfl, List.prefix_of_prefix_length_le ((List.prefix_append _ _).trans hi)
    (List.prefix_append _ _) ?_⟩
  have hlen := hi.length_le
  have hone : b.closing.toList.length ≤ 1 := by cases b.closing <;> simp
  simp only [List.length_append, List.length_singleton] at hlen
  omega

theorem Block.Holds.size_bounds {b : Block lines} (h : b.Holds pre line) :
    Source.size b.before ≤ Source.size pre ∧
      Source.size pre ≤ Source.size (b.before ++ b.opening :: b.inside) := by
  obtain ⟨i, rfl, hi⟩ := h.exists_inside
  have := Source.size_mono hi
  simp only [Source.size_append, Source.size_cons]
  omega

/-- A line that a block holds is in the process of the block. -/
theorem Block.Holds.process_eq {b : Block lines} (h : b.Holds pre line) :
    Source.process pre = some b.name := by
  obtain ⟨i, rfl, hi⟩ := h.exists_inside
  rw [← List.singleton_append, ← List.append_assoc,
    Source.process_append_plain fun l hl => b.plain l (hi.subset hl), Source.process_concat,
    Line.processAfter, Line.closes_of_opens b.opens, b.opens]
  rfl

end BarrelAsm
