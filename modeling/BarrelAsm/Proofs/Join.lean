import BarrelAsm.Proofs.Split

/-! Words with spaces and tabs between them are found again by splitting the line that they make
up. -/
namespace BarrelAsm.Token

variable {b : UInt8} {g t w : Text} {ws : List Text}

/-- A word that can stand anywhere in a line: a comma, an operator, or a text without these, white
space, quotes and opening brackets. -/
inductive IsWord : Text → Prop where
  | plain {w : Text} (hne : w ≠ []) (hblank : ∀ b ∈ Text.blanks, ¬ b <:+: w)
      (hbytes : ∀ x ∈ w, x ∉ ([45, 44, 43, 42, 47, 91, 34, 39] : Text)) : IsWord w
  | mark {x : UInt8} (hx : x ∈ ([44, 43, 45, 42, 47] : Text)) : IsWord [x]

/-- A sign and decimal digits. -/
inductive IsSigned : Text → Prop where
  | mk {s : UInt8} {ds : Text} (hs : s = 43 ∨ s = 45) (hne : ds ≠ [])
      (hds : ∀ d ∈ ds, Text.isDigit d = true) : IsSigned (s :: ds)

/-- A text in double quotes, single quotes or square brackets. -/
inductive IsEnclosed : Text → Prop where
  | mk {o c : UInt8} {u : Text} (hoc : (o, c) ∈ [((34 : UInt8), (34 : UInt8)), (39, 39), (91, 93)])
      (hu : 10 ∉ u) : IsEnclosed (o :: (u ++ [c]))

/-- Spaces and tabs. -/
def IsGap (g : Text) : Prop := g ≠ [] ∧ ∀ x ∈ g, x = 32 ∨ x = 9

/-- What can follow the first word of a line: further words, each behind a gap. An enclosed text is
the last one. -/
inductive Continued : List Text → Text → Prop where
  | nil : Continued [] []
  | word {g w t : Text} {ws : List Text} (hg : IsGap g) (hw : IsWord w ∨ IsSigned w)
      (ht : Continued ws t) : Continued (w :: ws) (g ++ (w ++ t))
  | enclosed {g w : Text} (hg : IsGap g) (hw : IsEnclosed w) : Continued [w] (g ++ w)

/-- A line made up of these words. -/
inductive Joined : List Text → Text → Prop where
  | nil : Joined [] []
  | word {w t : Text} {ws : List Text} (hw : IsWord w) (ht : Continued ws t) :
      Joined (w :: ws) (w ++ t)
  | enclosed {w : Text} (hw : IsEnclosed w) : Joined [w] w

theorem IsGap.isBlank (hg : IsGap g) : ∀ x ∈ g, isBlank x = true := by
  intro x hx
  rcases hg.2 x hx with rfl | rfl <;> rfl

theorem IsGap.head (hg : IsGap g) (t : Text) : ∀ x ∈ (g ++ t).head?, Token.isBlank x = true := by
  intro x hx
  obtain ⟨y, ys, rfl⟩ := List.exists_cons_of_ne_nil hg.1
  obtain rfl : y = x := by simpa using hx
  exact hg.isBlank y List.mem_cons_self

/-- Behind a word the line is at its end or goes on with a blank. -/
theorem Continued.head (h : Continued ws t) : ∀ x ∈ t.head?, isBlank x = true := by
  cases h with
  | nil => simp
  | word hg _ _ | enclosed hg _ => exact hg.head _

theorem unsigned_of_isBlank (h : ∀ x ∈ t.head?, isBlank x = true) : Unsigned t := by
  intro x hx
  constructor
  · rintro rfl
    exact absurd (h _ hx) (by decide)
  · rintro rfl
    exact absurd (h _ hx) (by decide)

theorem trimmedPieces_gap (hg : ∀ x ∈ g, isBlank x = true) (ht : Unsigned t) :
    trimmedPieces (g ++ t) = trimmedPieces t := by
  induction g with
  | nil => rfl
  | cons b g ih =>
    have hg' : ∀ x ∈ g, isBlank x = true := fun x hx => hg x (List.mem_cons_of_mem b hx)
    have hnext : Unsigned (g ++ t) := by
      cases g with
      | nil => exact ht
      | cons y ys =>
        apply unsigned_of_isBlank
        intro x hx
        obtain rfl : y = x := by simpa using hx
        exact hg' y List.mem_cons_self
    rw [List.cons_append, trimmedPieces_blank (hg b List.mem_cons_self) hnext, ih hg']

theorem trimmedPieces_of_trim {p r : Text} (hp : Piece p r) (ht : Text.trim p = w) (hw : w ≠ []) :
    trimmedPieces (p ++ r) = w :: trimmedPieces r := by
  rw [trimmedPieces_piece hp, ht, if_neg hw]

theorem mark_byte {x : UInt8} (hx : x ∈ ([44, 43, 45, 42, 47] : Text)) :
    (x = 44 ∨ isOperator x = true) ∧ x < 128 ∧ [x] ∉ Text.blanks := by
  simp only [List.mem_cons, List.not_mem_nil, or_false] at hx
  rcases hx with rfl | rfl | rfl | rfl | rfl <;> decide

theorem trimmedPieces_word (hw : IsWord w) (ht : ∀ x ∈ t.head?, isBlank x = true) :
    trimmedPieces (w ++ t) = w :: trimmedPieces t := by
  cases hw with
  | plain hne hblank hbytes =>
    have hsep : ∀ x ∈ w, isSeparator x = false := by
      intro x hx
      by_contra hsep
      rcases isSeparator_iff.mp (by simpa using hsep) with (rfl | ho) | hb
      · exact hbytes _ hx (by decide)
      · simp only [isOperator, Bool.or_eq_true, beq_iff_eq] at ho
        rcases ho with ((rfl | rfl) | rfl) | rfl <;> exact hbytes _ hx (by decide)
      · obtain ⟨u, v, rfl⟩ := List.append_of_mem hx
        exact hblank [x] (mem_blanks_of_isBlank hb) ⟨u, v, by simp⟩
    have hpiece : Piece w t := by
      obtain ⟨b, u, rfl⟩ := List.exists_cons_of_ne_nil hne
      refine .run (hsep b List.mem_cons_self) ?_ ?_ ?_
      · intro c hc
        have hb := hbytes b List.mem_cons_self
        rcases closer?_eq_some_iff.mp hc with ⟨rfl, -⟩ | ⟨rfl, -⟩ | ⟨rfl, -⟩ <;>
          exact absurd (by decide) hb
      · exact fun x hx => hsep x (List.mem_cons_of_mem b hx)
      · exact fun x hx => isSeparator_iff.mpr (.inr (ht x hx))
    refine trimmedPieces_of_trim hpiece (Text.trim_of_ends ?_ ?_) hne
    · exact fun b hb hp => hblank b hb hp.isInfix
    · exact fun b hb hs => hblank b hb hs.isInfix
  | @mark x hx =>
    obtain ⟨hmark, hlt, hno⟩ := mark_byte hx
    exact trimmedPieces_of_trim (.mark hmark) (Text.trim_of_ascii rfl rfl ⟨hlt, hlt⟩ ⟨hno, hno⟩)
      (List.cons_ne_nil x [])

theorem not_isWordByte_of_mem_blanks {c : Text} (hc : c ∈ Text.blanks) :
    ∀ x ∈ c, Text.isWordByte x = false := by
  have hall : Text.blanks.all (·.all (!Text.isWordByte ·)) = true := by decide
  simpa using List.all_eq_true.mp hall c hc

theorem word_byte {d : UInt8} (hd : Text.isWordByte d = true) : d < 128 ∧ [d] ∉ Text.blanks := by
  refine ⟨lt_of_isWordByte hd, fun hmem => ?_⟩
  have hno := not_isWordByte_of_mem_blanks hmem d List.mem_cons_self
  rw [hd] at hno
  cases hno

/-- A sign behind a blank takes the blank into its piece, where trimming takes it off again. -/
theorem trimmedPieces_signed {s : UInt8} {ds : Text} (hb : isBlank b = true) (hs : s = 43 ∨ s = 45)
    (hds : ∀ d ∈ ds, Text.isDigit d = true) (ht : ∀ x ∈ t.head?, isBlank x = true) :
    trimmedPieces (b :: s :: (ds ++ t)) = (s :: ds) :: trimmedPieces t := by
  have hend : ∀ x ∈ t.head?, Text.isDigit x = false := by
    intro x hx
    have hx := ht x hx
    simp only [isBlank, Bool.or_eq_true, beq_iff_eq] at hx
    rcases hx with (((rfl | rfl) | rfl) | rfl) | rfl <;> rfl
  have hhex : hexTailLength t = 0 := by
    cases t with
    | nil => rfl
    | cons x xs =>
      have hx := ht x rfl
      simp only [isBlank, Bool.or_eq_true, beq_iff_eq] at hx
      rcases hx with (((rfl | rfl) | rfl) | rfl) | rfl <;> rfl
  have hpiece : Piece (b :: s :: (ds ++ [])) t := .signed hb hs hds hend hhex
  rw [List.append_nil] at hpiece
  have htrim : Text.trim (b :: s :: ds) = s :: ds := by
    have hne := List.cons_ne_nil s ds
    have hsign : s < 128 ∧ [s] ∉ Text.blanks := by rcases hs with rfl | rfl <;> decide
    have hlast : (s :: ds).getLast hne < 128 ∧ [(s :: ds).getLast hne] ∉ Text.blanks := by
      rcases List.mem_cons.mp (List.getLast_mem hne) with he | hd
      · rwa [he]
      · exact word_byte (isWordByte_of_isDigit (hds _ hd))
    rw [← List.singleton_append, Text.trim_blank_append (mem_blanks_of_isBlank hb)]
    exact Text.trim_of_ascii rfl (List.getLast?_eq_some_getLast hne) ⟨hsign.1, hlast.1⟩
      ⟨hsign.2, hlast.2⟩
  exact trimmedPieces_of_trim hpiece htrim (List.cons_ne_nil s ds)

theorem trimmedPieces_gap_signed {s : UInt8} {ds : Text} (hg : IsGap g) (hs : s = 43 ∨ s = 45)
    (hds : ∀ d ∈ ds, Text.isDigit d = true) (ht : ∀ x ∈ t.head?, isBlank x = true) :
    trimmedPieces (g ++ (s :: ds ++ t)) = (s :: ds) :: trimmedPieces t := by
  have hblank := hg.isBlank
  have hsplit := List.dropLast_append_getLast hg.1
  have hb := hblank _ (List.getLast_mem hg.1)
  have hfront : ∀ x ∈ g.dropLast, isBlank x = true :=
    fun x hx => hblank x (List.mem_of_mem_dropLast hx)
  have hnext : Unsigned (g.getLast hg.1 :: (s :: ds ++ t)) :=
    unsigned_of_isBlank (by simpa using hb)
  rw [← hsplit, List.append_assoc, List.singleton_append, trimmedPieces_gap hfront hnext]
  exact trimmedPieces_signed hb hs hds ht

theorem trimmedPieces_enclosed {o c : UInt8} {u : Text} (hoc : closer? o = some c) (hu : 10 ∉ u)
    (ht : c ∉ t.takeWhile (· != 10)) :
    trimmedPieces (o :: (u ++ [c]) ++ t) = (o :: (u ++ [c])) :: trimmedPieces t :=
  trimmedPieces_of_trim (.enclosed hoc hu ht) (trim_enclosed hoc u) (List.cons_ne_nil _ _)

theorem IsEnclosed.trimmedPieces (hw : IsEnclosed w) : trimmedPieces w = [w] := by
  cases hw with
  | @mk o c u hoc hu =>
    have hclose : closer? o = some c := by
      simp only [List.mem_cons, List.not_mem_nil, or_false, Prod.mk.injEq] at hoc
      rcases hoc with ⟨rfl, rfl⟩ | ⟨rfl, rfl⟩ | ⟨rfl, rfl⟩ <;> rfl
    have hsplit := trimmedPieces_enclosed (t := []) hclose hu List.not_mem_nil
    rwa [List.append_nil, trimmedPieces_nil] at hsplit

theorem IsEnclosed.unsigned (hw : IsEnclosed w) : Unsigned w := by
  cases hw with
  | @mk o c u hoc hu =>
    intro x hx
    obtain rfl : o = x := by simpa using hx
    simp only [List.mem_cons, List.not_mem_nil, or_false, Prod.mk.injEq] at hoc
    rcases hoc with ⟨rfl, -⟩ | ⟨rfl, -⟩ | ⟨rfl, -⟩ <;> decide

theorem trimmedPieces_gap_word (hg : IsGap g) (hw : IsWord w ∨ IsSigned w)
    (ht : ∀ x ∈ t.head?, isBlank x = true) :
    trimmedPieces (g ++ (w ++ t)) = w :: trimmedPieces t := by
  rcases hw with hw | hw
  · by_cases hsign : Unsigned (w ++ t)
    · rw [trimmedPieces_gap hg.isBlank hsign, trimmedPieces_word hw ht]
    cases hw with
    | plain hne hblank hbytes =>
      obtain ⟨x, u, rfl⟩ := List.exists_cons_of_ne_nil hne
      have hx := hbytes x List.mem_cons_self
      refine absurd (fun y hy => ?_) hsign
      obtain rfl : x = y := by simpa using hy
      constructor <;> rintro rfl <;> exact hx (by decide)
    | @mark x hx =>
      have hs : x = 43 ∨ x = 45 := by
        simpa [Unsigned, or_iff_not_imp_left] using hsign
      exact trimmedPieces_gap_signed hg hs (by simp) ht
  · cases hw with
    | mk hs hne hds => exact trimmedPieces_gap_signed hg hs hds ht

theorem trimmedPieces_continued (h : Continued ws t) : trimmedPieces t = ws := by
  induction h with
  | nil => exact trimmedPieces_nil
  | word hg hw ht ih => rw [trimmedPieces_gap_word hg hw ht.head, ih]
  | enclosed hg hw => rw [trimmedPieces_gap hg.isBlank hw.unsigned, hw.trimmedPieces]

/-- Splitting undoes joining: the tokens of a line made up of words with gaps between them are the
tokens of the words, in their order. -/
theorem tokenize_joined {line : Text} (h : Joined ws line) :
    trimmedPieces line = ws ∧ tokenize line = ws.map ofText := by
  have hpieces : trimmedPieces line = ws := by
    cases h with
    | nil => exact trimmedPieces_nil
    | word hw ht => rw [trimmedPieces_word hw ht.head, trimmedPieces_continued ht]
    | enclosed hw => exact hw.trimmedPieces
  exact ⟨hpieces, by rw [tokenize, hpieces]⟩

/-- A sign stands alone, is glued to its digits, and is inside quotes with a bracket and a quote. -/
theorem tokenize_joined_signs :
    tokenize "(a)\t- x:  -12 'b' -1 ['" = [⟨.indirection, "a", 0⟩, ⟨.operator, "-", 0⟩,
      ⟨.label, "x", 0⟩, ⟨.number, "-12", 65524⟩, ⟨.string, "b", 1⟩] := by
  have hline : ("(a)\t- x:  -12 'b' -1 ['" : Text) = [40, 97, 41] ++ ([9] ++ ([45] ++ ([32] ++
      ([120, 58] ++ ([32, 32] ++ ([45, 49, 50] ++ ([32] ++
        39 :: ([98, 39, 32, 45, 49, 32, 91] ++ [39])))))))) := by decide +kernel
  have hgap : ∀ g ∈ [[(9 : UInt8)], [32], [32, 32]], IsGap g := by
    simp [IsGap]
  have hnumber : IsSigned [45, 49, 50] := .mk (.inr rfl) (by decide) (by simp [Text.isDigit])
  have hjoined := Joined.word (.plain (w := [40, 97, 41]) (by decide) (by decide) (by simp))
    (.word (hgap [9] (by decide)) (.inl (.mark (x := 45) (by decide)))
    (.word (hgap [32] (by decide))
      (.inl (.plain (w := [120, 58]) (by decide) (by decide) (by simp)))
    (.word (hgap [32, 32] (by decide)) (.inr hnumber)
    (.enclosed (hgap [32] (by decide))
      (.mk (o := 39) (c := 39) (u := [98, 39, 32, 45, 49, 32, 91]) (by decide) (by decide))))))
  rw [hline]
  exact (tokenize_joined hjoined).2.trans (by decide +kernel)

end BarrelAsm.Token
