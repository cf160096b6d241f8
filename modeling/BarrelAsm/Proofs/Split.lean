import BarrelAsm.Assembly.Statement
import BarrelAsm.Proofs.Blank
import Mathlib.Data.List.TakeWhile

/-! How a line is split: the pieces that it can start with, and that splitting skips nothing but
white space. -/
namespace BarrelAsm.Token

variable {b c : UInt8} {p r t u : Text}

/-! Classes of bytes. -/

theorem lt_of_isBlank (h : isBlank b = true) : b < 128 := by
  simp only [isBlank, Bool.or_eq_true, beq_iff_eq] at h
  rcases h with (((rfl | rfl) | rfl) | rfl) | rfl <;> decide

theorem mem_blanks_of_isBlank (h : isBlank b = true) : [b] ∈ Text.blanks := by
  simp only [isBlank, Bool.or_eq_true, beq_iff_eq] at h
  rcases h with (((rfl | rfl) | rfl) | rfl) | rfl <;> decide

theorem lt_of_isOperator (h : isOperator b = true) : b < 128 := by
  simp only [isOperator, Bool.or_eq_true, beq_iff_eq] at h
  rcases h with ((rfl | rfl) | rfl) | rfl <;> decide

theorem isSeparator_iff :
    isSeparator b = true ↔ (b = 44 ∨ isOperator b = true) ∨ isBlank b = true := by
  simp only [isSeparator, Bool.or_eq_true, beq_iff_eq]

theorem lt_of_isSeparator (h : isSeparator b = true) : b < 128 := by
  rcases isSeparator_iff.mp h with (rfl | ho) | hb
  · decide
  · exact lt_of_isOperator ho
  · exact lt_of_isBlank hb

theorem closer?_eq_some_iff :
    closer? b = some c ↔ (b = 91 ∧ c = 93) ∨ (b = 34 ∧ c = 34) ∨ (b = 39 ∧ c = 39) := by
  unfold closer?
  by_cases h91 : b = 91
  · subst h91
    simp [eq_comm]
  by_cases h34 : b = 34
  · subst h34
    simp [eq_comm]
  by_cases h39 : b = 39
  · subst h39
    simp [eq_comm]
  simp [h91, h34, h39]

theorem closer?_of_isSeparator (h : isSeparator b = true) : closer? b = none := by
  cases hc : closer? b with
  | none => rfl
  | some c =>
    rcases closer?_eq_some_iff.mp hc with ⟨rfl, -⟩ | ⟨rfl, -⟩ | ⟨rfl, -⟩ <;>
      exact absurd h (by decide)

/-! The last closing byte on a line. -/

theorem closingLength_eq_zero_iff : closingLength c t = 0 ↔ c ∉ t.takeWhile (· != 10) := by
  unfold closingLength
  rw [List.length_eq_zero_iff, List.dropWhile_eq_nil_iff]
  simp only [List.mem_reverse, bne_iff_ne]
  exact ⟨fun h hm => h c hm rfl, fun h x hx hxc => h (hxc ▸ hx)⟩

theorem takeWhile_line (hu : 10 ∉ u) :
    (u ++ t).takeWhile (· != 10) = u ++ t.takeWhile (· != 10) := by
  apply List.takeWhile_append_of_pos
  intro x hx
  simpa using fun he : x = 10 => hu (he ▸ hx)

theorem closingLength_append (hc : c ≠ 10) (hu : 10 ∉ u) (hr : c ∉ r.takeWhile (· != 10)) :
    closingLength c (u ++ c :: r) = u.length + 1 := by
  have hback : ∀ x ∈ (r.takeWhile (· != 10)).reverse, (x != c) = true := by
    intro x hx
    simpa using fun he : x = c => hr (he ▸ List.mem_reverse.mp hx)
  unfold closingLength
  rw [takeWhile_line hu, List.takeWhile_cons_of_pos (by simpa using hc), List.reverse_append,
    List.reverse_cons, List.append_assoc, List.dropWhile_append_of_pos hback, List.singleton_append,
    List.dropWhile_cons_of_neg (by simp), List.length_cons, List.length_reverse]

theorem exists_closing (h : c ∈ t.takeWhile (· != 10)) :
    ∃ u r, t = u ++ c :: r ∧ 10 ∉ u ∧ c ∉ r.takeWhile (· != 10) := by
  induction t with
  | nil => cases h
  | cons x xs ih =>
    by_cases hx : x = 10
    · rw [List.takeWhile_cons_of_neg (by simpa using hx)] at h
      cases h
    rw [List.takeWhile_cons_of_pos (by simpa using hx)] at h
    by_cases hlater : c ∈ xs.takeWhile (· != 10)
    · obtain ⟨u, r, rfl, hu, hr⟩ := ih hlater
      refine ⟨x :: u, r, rfl, ?_, hr⟩
      simpa using ⟨fun he => hx he.symm, hu⟩
    · rcases List.mem_cons.mp h with rfl | hmem
      · exact ⟨[], xs, rfl, List.not_mem_nil, hlater⟩
      · exact absurd hmem hlater

/-- A piece that a line can start with, and the rest of the line. -/
inductive Piece : Text → Text → Prop where
  /-- Brackets or quotes reach to the last closing byte on the line. -/
  | enclosed {b c : UInt8} {u r : Text} (hb : closer? b = some c) (hu : 10 ∉ u)
      (hr : c ∉ r.takeWhile (· != 10)) : Piece (b :: (u ++ [c])) r
  /-- A run reaches to the next separator; what opens it is not closed. -/
  | run {b : UInt8} {u r : Text} (hb : isSeparator b = false)
      (hopen : ∀ c, closer? b = some c → c ∉ (u ++ r).takeWhile (· != 10))
      (hu : ∀ x ∈ u, isSeparator x = false) (hr : ∀ x ∈ r.head?, isSeparator x = true) :
      Piece (b :: u) r
  | mark {b : UInt8} {r : Text} (hb : b = 44 ∨ isOperator b = true) : Piece [b] r
  /-- A sign behind a blank takes the digits that follow it. -/
  | signed {b s : UInt8} {ds xs r : Text} (hb : isBlank b = true) (hs : s = 43 ∨ s = 45)
      (hds : ∀ d ∈ ds, Text.isDigit d = true) (hend : ∀ x ∈ (xs ++ r).head?, Text.isDigit x = false)
      (hxs : hexTailLength (xs ++ r) = xs.length) : Piece (b :: s :: (ds ++ xs)) r

/-- The next byte is no sign. -/
def Unsigned (t : Text) : Prop := ∀ x ∈ t.head?, x ≠ 43 ∧ x ≠ 45

theorem signedLength_of_unsigned (h : Unsigned t) : signedLength t = 0 := by
  cases t with
  | nil => rfl
  | cons x xs =>
    have hx := h x rfl
    simp [signedLength, hx.1, hx.2]

theorem head_dropWhile {f : UInt8 → Bool} (h : b ∈ (t.dropWhile f).head?) : f b = false := by
  have hstop := List.head?_dropWhile_not f t
  rw [Option.mem_def.mp h] at hstop
  exact hstop

theorem takeWhile_append_stop {f : UInt8 → Bool} (hu : ∀ x ∈ u, f x = true)
    (hr : ∀ x ∈ r.head?, f x = false) :
    (u ++ r).takeWhile f = u ∧ (u ++ r).dropWhile f = r := by
  rw [List.takeWhile_append_of_pos hu, List.dropWhile_append_of_pos hu]
  cases r with
  | nil => simp
  | cons x xs =>
    have hx := hr x rfl
    simp [hx]

theorem enclosedLength_eq_zero (h : ∀ c, closer? b = some c → c ∉ t.takeWhile (· != 10)) :
    enclosedLength b t = 0 := by
  unfold enclosedLength
  split
  · exact closingLength_eq_zero_iff.mpr (h _ (by assumption))
  · rfl

theorem enclosedLength_of_isSeparator (h : isSeparator b = true) : enclosedLength b t = 0 := by
  apply enclosedLength_eq_zero
  intro c hc
  rw [closer?_of_isSeparator h] at hc
  cases hc

theorem Piece.length (h : Piece p r) : pieceLength (p ++ r) = p.length := by
  cases h with
  | @enclosed b c u _ hb hu hr =>
    have hc : c ≠ 10 := by
      rcases closer?_eq_some_iff.mp hb with ⟨-, rfl⟩ | ⟨-, rfl⟩ | ⟨-, rfl⟩ <;> decide
    have hlen : enclosedLength b (u ++ c :: r) = u.length + 1 := by
      rw [enclosedLength, hb]
      exact closingLength_append hc hu hr
    simp [pieceLength, hlen]
  | run hb hopen hu hr =>
    have hu' : ∀ x ∈ _, (!isSeparator x) = true := fun x hx => by rw [hu x hx]; rfl
    have hr' : ∀ x ∈ r.head?, (!isSeparator x) = false := fun x hx => by rw [hr x hx]; rfl
    rw [List.cons_append, pieceLength, enclosedLength_eq_zero hopen]
    simp only [hb, Bool.not_false, if_true, (takeWhile_append_stop hu' hr').1, List.length_cons]
    omega
  | @mark b _ hb =>
    have hsep : isSeparator b = true := isSeparator_iff.mpr (.inl hb)
    have hblank : isBlank b = false := by
      rcases hb with rfl | ho
      · rfl
      · simp only [isOperator, Bool.or_eq_true, beq_iff_eq] at ho
        rcases ho with ((rfl | rfl) | rfl) | rfl <;> rfl
    simp [pieceLength, enclosedLength_of_isSeparator hsep, hsep, hblank]
  | @signed b s ds xs _ hb hs hds hend hxs =>
    have hsep : isSeparator b = true := isSeparator_iff.mpr (.inr hb)
    have hlen : signedLength (s :: (ds ++ (xs ++ r))) = 1 + ds.length + xs.length := by
      have hsign : (s == 43 || s == 45) = true := by rcases hs with rfl | rfl <;> rfl
      obtain ⟨htake, hdrop⟩ := takeWhile_append_stop hds hend
      rw [signedLength, if_pos hsign, htake, hdrop, hxs]
    have hpos : signedLength (s :: (ds ++ (xs ++ r))) = ds.length + xs.length + 1 := by omega
    simp [pieceLength, enclosedLength_of_isSeparator hsep, hsep, hb, hpos]

theorem pieces_piece (h : Piece p r) : pieces (p ++ r) = p :: pieces r := by
  have hlen := h.length
  cases p with
  | nil => cases h
  | cons b u =>
    rw [List.cons_append] at hlen ⊢
    rw [pieces, hlen]
    simp

theorem pieces_blank (hb : isBlank b = true) (hu : Unsigned t) : pieces (b :: t) = pieces t := by
  have hsep : isSeparator b = true := isSeparator_iff.mpr (.inr hb)
  have hlen : pieceLength (b :: t) = 0 := by
    simp [pieceLength, enclosedLength_of_isSeparator hsep, hsep, hb, signedLength_of_unsigned hu]
  rw [pieces, hlen]

theorem exists_hexTail (t : Text) : ∃ xs r, t = xs ++ r ∧ hexTailLength (xs ++ r) = xs.length := by
  refine ⟨t.take (hexTailLength t), t.drop (hexTailLength t), (List.take_append_drop _ t).symm, ?_⟩
  rw [List.take_append_drop, List.length_take]
  cases t with
  | nil => rfl
  | cons b bs =>
    have hle := (List.takeWhile_sublist Text.isHexDigit (l := bs)).length_le
    simp only [hexTailLength, List.length_cons]
    split_ifs <;> omega

/-- A piece in brackets or quotes has nothing to trim. -/
theorem trim_enclosed (h : closer? b = some c) (u : Text) :
    Text.trim (b :: (u ++ [c])) = b :: (u ++ [c]) := by
  have hlast : c ∈ (b :: (u ++ [c])).getLast? := by
    rw [← List.cons_append, List.getLast?_concat]
    rfl
  rcases closer?_eq_some_iff.mp h with ⟨rfl, rfl⟩ | ⟨rfl, rfl⟩ | ⟨rfl, rfl⟩ <;>
    exact Text.trim_of_ascii rfl hlast (by decide) (by decide)

/-- A line starts with a blank that is skipped or with a piece. -/
theorem exists_piece (b : UInt8) (t : Text) :
    (isBlank b = true ∧ Unsigned t) ∨ ∃ p r, b :: t = p ++ r ∧ Piece p r := by
  by_cases hclosed : ∃ c, closer? b = some c ∧ c ∈ t.takeWhile (· != 10)
  · obtain ⟨c, hc, hmem⟩ := hclosed
    obtain ⟨u, r, rfl, hu, hr⟩ := exists_closing hmem
    exact .inr ⟨b :: (u ++ [c]), r, by simp, .enclosed hc hu hr⟩
  have hopen : ∀ c, closer? b = some c → c ∉ t.takeWhile (· != 10) :=
    fun c hc hm => hclosed ⟨c, hc, hm⟩
  by_cases hsep : isSeparator b = true
  · rcases isSeparator_iff.mp hsep with hmark | hblank
    · exact .inr ⟨[b], t, rfl, .mark hmark⟩
    by_cases hsign : Unsigned t
    · exact .inl ⟨hblank, hsign⟩
    right
    cases t with
    | nil => exact absurd (by simp [Unsigned]) hsign
    | cons s rest =>
      have hs : s = 43 ∨ s = 45 := by
        simpa [Unsigned, or_iff_not_imp_left] using hsign
      obtain ⟨xs, r, hrest, hxs⟩ := exists_hexTail (rest.dropWhile Text.isDigit)
      refine ⟨b :: s :: (rest.takeWhile Text.isDigit ++ xs), r, ?_, .signed hblank hs ?_ ?_ hxs⟩
      · rw [List.cons_append, List.cons_append, List.append_assoc, ← hrest,
          List.takeWhile_append_dropWhile]
      · exact fun d hd => List.mem_takeWhile_imp hd
      · rw [← hrest]
        exact fun x hx => head_dropWhile hx
  · have hsep : isSeparator b = false := by simpa using hsep
    refine .inr ⟨b :: t.takeWhile (!isSeparator ·), t.dropWhile (!isSeparator ·), ?_,
      .run hsep ?_ ?_ ?_⟩
    · rw [List.cons_append, List.takeWhile_append_dropWhile]
    · rwa [List.takeWhile_append_dropWhile]
    · intro x hx
      simpa using List.mem_takeWhile_imp hx
    · intro x hx
      simpa using head_dropWhile hx

theorem Piece.ne_nil (h : Piece p r) : p ≠ [] := by
  cases h <;> exact List.cons_ne_nil _ _

/-- What holds of the empty line, and of a line if it holds behind the blank or the piece at its
front, holds of every line. -/
theorem split_induction {P : Text → Prop} (nil : P [])
    (blank : ∀ b t, isBlank b = true → Unsigned t → P t → P (b :: t))
    (piece : ∀ p r, Piece p r → P r → P (p ++ r)) (t : Text) : P t := by
  induction h : t.length using Nat.strong_induction_on generalizing t with
  | _ n ih =>
    cases t with
    | nil => exact nil
    | cons b t =>
      rcases exists_piece b t with ⟨hb, hu⟩ | ⟨p, r, hsplit, hp⟩
      · exact blank b t hb hu (ih t.length (by rw [← h]; simp) t rfl)
      · have hlen := congrArg List.length hsplit
        have hpos := List.length_pos_iff.mpr hp.ne_nil
        rw [List.length_append] at hlen
        rw [hsplit]
        exact piece p r hp (ih r.length (by omega) r rfl)

/-! Nothing but white space is skipped. -/

theorem lt_of_isWordByte (h : Text.isWordByte b = true) : b < 128 := by
  simp only [Text.isWordByte, Text.isNameStart, Text.isDigit, Bool.or_eq_true, Bool.and_eq_true,
    decide_eq_true_eq, beq_iff_eq] at h
  rcases h with ((rfl | h) | h) | h
  · decide
  all_goals exact UInt8.lt_of_le_of_lt h.2 (by decide)

theorem isWordByte_of_isDigit (h : Text.isDigit b = true) : Text.isWordByte b = true := by
  rw [Text.isWordByte, h, Bool.or_true]

theorem isWordByte_of_isHexDigit (h : Text.isHexDigit b = true) : Text.isWordByte b = true := by
  simp only [Text.isHexDigit, Bool.or_eq_true, Bool.and_eq_true, decide_eq_true_eq] at h
  rcases h with (h | h) | h
  · exact isWordByte_of_isDigit h
  · have hle : b ≤ 122 := UInt8.le_trans h.2 (by decide)
    simp [Text.isWordByte, Text.isNameStart, h.1, hle]
  · have hle : b ≤ 90 := UInt8.le_trans h.2 (by decide)
    simp [Text.isWordByte, Text.isNameStart, h.1, hle]

theorem isWordByte_of_mem_hexTail {xs : Text} (h : hexTailLength (xs ++ r) = xs.length) :
    ∀ x ∈ xs, Text.isWordByte x = true := by
  cases xs with
  | nil => simp
  | cons y ys =>
    rw [List.cons_append, hexTailLength] at h
    split_ifs at h with hy
    have hys : (ys ++ r).takeWhile Text.isHexDigit = ys := by
      have hlen : ((ys ++ r).takeWhile Text.isHexDigit).length = ys.length := by
        rw [List.length_cons] at h
        omega
      have htake := List.prefix_iff_eq_take.mp
        (List.takeWhile_prefix Text.isHexDigit (l := ys ++ r))
      rwa [hlen, List.take_left] at htake
    intro x hx
    rcases List.mem_cons.mp hx with rfl | hx
    · simp only [Bool.or_eq_true, beq_iff_eq] at hy
      rcases hy with rfl | rfl <;> rfl
    · rw [← hys] at hx
      exact isWordByte_of_isHexDigit (List.mem_takeWhile_imp hx)

/-- A piece ends behind a byte of ASCII or in front of a separator. -/
theorem Piece.seam (h : Piece p r) : Text.Seam p r := by
  cases h with
  | @enclosed b c u _ hb hu hr =>
    apply Text.seam_of_getLast
    have hc : c < 128 := by
      rcases closer?_eq_some_iff.mp hb with ⟨-, rfl⟩ | ⟨-, rfl⟩ | ⟨-, rfl⟩ <;> decide
    rw [← List.cons_append, List.getLast?_concat]
    simpa using hc
  | run hb hopen hu hr => exact Text.seam_of_head fun x hx => .inl (lt_of_isSeparator (hr x hx))
  | @mark b _ hb =>
    apply Text.seam_of_getLast
    simpa using lt_of_isSeparator (isSeparator_iff.mpr (.inl hb))
  | @signed b s ds xs _ hb hs hds hend hxs =>
    apply Text.seam_of_getLast
    intro a ha
    have hmem := List.mem_of_getLast? ha
    simp only [List.mem_cons, List.mem_append] at hmem
    rcases hmem with rfl | rfl | hmem | hmem
    · exact lt_of_isBlank hb
    · rcases hs with rfl | rfl <;> decide
    · exact lt_of_isWordByte (isWordByte_of_isDigit (hds a hmem))
    · exact lt_of_isWordByte (isWordByte_of_mem_hexTail hxs a hmem)

theorem trimmedPieces_nil : trimmedPieces [] = [] := by
  rw [trimmedPieces, pieces]
  rfl

theorem trimmedPieces_blank (hb : isBlank b = true) (hu : Unsigned t) :
    trimmedPieces (b :: t) = trimmedPieces t := by
  rw [trimmedPieces, pieces_blank hb hu, trimmedPieces]

theorem trimmedPieces_piece (h : Piece p r) :
    trimmedPieces (p ++ r) =
      if Text.trim p = [] then trimmedPieces r else Text.trim p :: trimmedPieces r := by
  rw [trimmedPieces, pieces_piece h, List.map_cons, List.filter_cons]
  simp only [Bool.not_eq_true', List.isEmpty_eq_false_iff, ne_eq, ite_not]
  rfl

theorem exists_of_mem_trimmedPieces {line : Text} (h : p ∈ trimmedPieces line) :
    ∃ p' r, Piece p' r ∧ p = Text.trim p' := by
  induction line using split_induction with
  | nil =>
    rw [trimmedPieces_nil] at h
    cases h
  | blank b t hb hu ih =>
    rw [trimmedPieces_blank hb hu] at h
    exact ih h
  | piece p' r hp ih =>
    rw [trimmedPieces_piece hp] at h
    split_ifs at h
    · exact ih h
    · rcases List.mem_cons.mp h with rfl | h
      · exact ⟨p', r, hp, rfl⟩
      · exact ih h

/-- Texts in a line one behind the other, with nothing but white space before, between and behind
them. -/
inductive Laid : List Text → Text → Prop where
  | nil {g : Text} (hg : Text.Blank g) : Laid [] g
  | cons {g p t : Text} {ps : List Text} (hg : Text.Blank g) (ht : Laid ps t) :
      Laid (p :: ps) (g ++ (p ++ t))

theorem Laid.blank {g : Text} {ps : List Text} (hg : Text.Blank g) (h : Laid ps t) :
    Laid ps (g ++ t) := by
  cases h with
  | nil hh => exact .nil (hg.append hh)
  | cons hh ht =>
    rw [← List.append_assoc]
    exact .cons (hg.append hh) ht

theorem laid_trimmedPieces (line : Text) : Laid (trimmedPieces line) line := by
  induction line using split_induction with
  | nil =>
    rw [trimmedPieces_nil]
    exact .nil .nil
  | blank b t hb hu ih =>
    rw [trimmedPieces_blank hb hu]
    exact ih.blank (.cons (mem_blanks_of_isBlank hb) .nil)
  | piece p r hp ih =>
    obtain ⟨g, h, hg, hh, hsplit⟩ := Text.exists_trim p
    rw [trimmedPieces_piece hp]
    split_ifs with hempty
    · rw [hsplit, hempty, List.nil_append]
      exact ih.blank (hg.append hh)
    · nth_rewrite 2 [hsplit]
      rw [List.append_assoc, List.append_assoc]
      exact .cons hg (ih.blank hh)

theorem flatMap_solid_trimmedPieces (line : Text) :
    (trimmedPieces line).flatMap Text.solid = Text.solid line := by
  induction line using split_induction with
  | nil => simp [trimmedPieces_nil]
  | blank b t hb hu ih =>
    rw [trimmedPieces_blank hb hu, ih]
    exact (Text.solid_blank (mem_blanks_of_isBlank hb) t).symm
  | piece p r hp ih =>
    rw [trimmedPieces_piece hp, Text.solid_append hp.seam]
    split_ifs with hempty
    · rw [ih, Text.solid_eq_nil_iff.mpr hempty, List.nil_append]
    · rw [List.flatMap_cons, ih, Text.solid_trim]

/-- Where no text starts inside a character, white space can be dropped before or after the texts
are put together. -/
theorem solid_flatten {ps : List Text} (h : ∀ p ∈ ps, ∀ a ∈ p.head?, a < 128 ∨ 192 ≤ a) :
    Text.solid ps.flatten = ps.flatMap Text.solid := by
  induction ps with
  | nil => simp
  | cons p ps ih =>
    have hrest : ∀ q ∈ ps, ∀ a ∈ q.head?, a < 128 ∨ 192 ≤ a :=
      fun q hq => h q (List.mem_cons_of_mem p hq)
    have hhead : ∀ a ∈ ps.flatten.head?, a < 128 ∨ 192 ≤ a := by
      intro a ha
      rw [List.head?_flatten] at ha
      obtain ⟨q, hq, hqa⟩ := List.exists_of_findSome?_eq_some ha
      exact hrest q hq a hqa
    rw [List.flatten_cons, Text.solid_append (Text.seam_of_head hhead), ih hrest, List.flatMap_cons]

theorem trimmedPieces_eq_nil_iff {line : Text} : trimmedPieces line = [] ↔ Text.trim line = [] := by
  have hsolid := flatMap_solid_trimmedPieces line
  rw [← Text.solid_eq_nil_iff, ← hsolid, List.flatMap_eq_nil_iff]
  constructor
  · intro hnil p hp
    simp [hnil] at hp
  · intro hblank
    rw [List.eq_nil_iff_forall_not_mem]
    intro p hp
    obtain ⟨p', r, hpiece, rfl⟩ := exists_of_mem_trimmedPieces hp
    have hnil := hblank _ hp
    rw [Text.solid_trim, Text.solid_eq_nil_iff] at hnil
    rw [hnil] at hp
    simp [trimmedPieces] at hp

theorem tokenize_ne_nil {line : Text} (h : Text.trim line ≠ []) : tokenize line ≠ [] :=
  fun hnil => h (trimmedPieces_eq_nil_iff.mp (List.map_eq_nil_iff.mp hnil))

/-- Splitting skips nothing but white space: the trimmed pieces lie in the line in their order, and
they have all its bytes that are not white space. So a line that is not blank has a first token. -/
theorem split_lossless (line : Text) :
    Laid (trimmedPieces line) line ∧
      (trimmedPieces line).flatMap Text.solid = Text.solid line ∧
      ((∀ p ∈ trimmedPieces line, ∀ a ∈ p.head?, a < 128 ∨ 192 ≤ a) →
        Text.solid (trimmedPieces line).flatten = Text.solid line) ∧
      (Text.trim line ≠ [] → tokenize line ≠ []) ∧
      ∀ s, Statement.ofLine? line = some s →
        ∃ t ts, tokenize (Statement.code line) = t :: ts ∧ s = Statement.ofTokens (t :: ts) := by
  have hsolid := flatMap_solid_trimmedPieces line
  refine ⟨laid_trimmedPieces line, hsolid, ?_, tokenize_ne_nil, ?_⟩
  · intro hstart
    rw [solid_flatten hstart, hsolid]
  · intro s hs
    unfold Statement.ofLine? at hs
    dsimp only at hs
    split_ifs at hs with hempty
    have hcode : Statement.code line ≠ [] := by simpa using hempty
    have htrim : Text.trim (Statement.code line) ≠ [] := by
      intro hnil
      have hnone := Text.solid_eq_nil_iff.mpr hnil
      rw [Statement.code, Text.solid_trim] at hnone
      exact hcode (Text.solid_eq_nil_iff.mp hnone)
    obtain ⟨t, ts, hts⟩ := List.exists_cons_of_ne_nil (tokenize_ne_nil htrim)
    refine ⟨t, ts, hts, ?_⟩
    rw [← hts]
    exact (Option.some.inj hs).symm

/-- A no-break space, a bracket that is not closed, a stray byte, a vertical tab and a sign. -/
theorem split_lossless_stray :
    Text.trim [0xC2, 0xA0, 91, 0x80, 11, 32, 45] ≠ [] ∧
      tokenize [0xC2, 0xA0, 91, 0x80, 11, 32, 45] ≠ [] ∧
      Text.solid (trimmedPieces [0xC2, 0xA0, 91, 0x80, 11, 32, 45]).flatten =
        Text.solid [0xC2, 0xA0, 91, 0x80, 11, 32, 45] := by
  obtain ⟨-, -, hflat, hfirst, -⟩ := split_lossless [0xC2, 0xA0, 91, 0x80, 11, 32, 45]
  have htrim : Text.trim [0xC2, 0xA0, 91, 0x80, 11, 32, 45] ≠ [] := by decide +kernel
  have hstart : ∀ p ∈ trimmedPieces [0xC2, 0xA0, 91, 0x80, 11, 32, 45], ∀ a ∈ p.head?,
      a < 128 ∨ 192 ≤ a := by decide +kernel
  exact ⟨htrim, hfirst htrim, hflat hstart⟩

end BarrelAsm.Token
