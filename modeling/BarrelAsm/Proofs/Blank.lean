import BarrelAsm.Text.Blank
import Mathlib.Data.List.Basic
import Mathlib.Data.List.Infix
import Mathlib.Tactic.SplitIfs

/-! White space at the ends of a text and inside it. Trimming removes white space only, and what is
not white space in a text is what is not white space in its parts, as long as no part ends inside a
white space character. -/
namespace BarrelAsm.Text

variable {bs : List Text} {b t x y g h : Text} {n : Nat}

/-- Members of `bs` one behind the other. -/
inductive MadeOf (bs : List Text) : Text → Prop where
  | nil : MadeOf bs []
  | cons {b t : Text} (hb : b ∈ bs) (ht : MadeOf bs t) : MadeOf bs (b ++ t)

theorem MadeOf.append (hx : MadeOf bs x) (hy : MadeOf bs y) : MadeOf bs (x ++ y) := by
  induction hx with
  | nil => exact hy
  | cons hb _ ih =>
    rw [List.append_assoc]
    exact .cons hb ih

theorem MadeOf.reverse (h : MadeOf (bs.map List.reverse) t) : MadeOf bs t.reverse := by
  induction h with
  | nil => exact .nil
  | @cons b t hb _ ih =>
    obtain ⟨c, hc, rfl⟩ := List.mem_map.mp hb
    have hlast : MadeOf bs (c ++ []) := .cons hc .nil
    rw [List.reverse_append, List.reverse_reverse]
    rw [List.append_nil] at hlast
    exact ih.append hlast

/-! Stripping one end. -/

theorem leading_eq_zero_iff (hbs : [] ∉ bs) : leading bs t = 0 ↔ ∀ b ∈ bs, ¬ b <+: t := by
  unfold leading
  cases hf : bs.find? (·.isPrefixOf t) with
  | none =>
    have hnone := List.find?_eq_none.mp hf
    simp only [List.isPrefixOf_iff_prefix] at hnone
    exact iff_of_true rfl hnone
  | some b =>
    have hb := List.mem_of_find?_eq_some hf
    have hp : b <+: t := List.isPrefixOf_iff_prefix.mp (by simpa using List.find?_some hf)
    have hlen : b.length ≠ 0 := fun h0 => hbs (List.length_eq_zero_iff.mp h0 ▸ hb)
    exact iff_of_false hlen fun hno => hno b hb hp

theorem exists_of_leading (h : leading bs t = n + 1) : ∃ b ∈ bs, t = b ++ t.drop (n + 1) := by
  unfold leading at h
  cases hf : bs.find? (·.isPrefixOf t) with
  | none => simp [hf] at h
  | some b =>
    have hp : b <+: t := List.isPrefixOf_iff_prefix.mp (by simpa using List.find?_some hf)
    have hlen : b.length = n + 1 := by simpa [hf] using h
    refine ⟨b, List.mem_of_find?_eq_some hf, ?_⟩
    rw [← hlen]
    exact List.prefix_append_drop hp

theorem strip_of_leading (h : leading bs t = 0) : strip bs t = t := by
  unfold strip
  split
  · rfl
  · omega

theorem leading_strip (bs : List Text) (t : Text) : leading bs (strip bs t) = 0 := by
  fun_induction strip bs t with
  | case1 t h => exact h
  | case2 t n h ih => exact ih

theorem exists_strip (bs : List Text) (t : Text) : ∃ g, MadeOf bs g ∧ t = g ++ strip bs t := by
  fun_induction strip bs t with
  | case1 t h => exact ⟨[], .nil, rfl⟩
  | case2 t n h ih =>
    obtain ⟨b, hb, ht⟩ := exists_of_leading h
    obtain ⟨g, hg, hrest⟩ := ih
    refine ⟨b ++ g, .cons hb hg, ?_⟩
    rw [List.append_assoc, ← hrest]
    exact ht

/-! White space. -/

/-- A text of white space only. -/
def Blank (t : Text) : Prop := MadeOf blanks t

theorem nil_notMem_blanks : [] ∉ blanks := by decide

theorem nil_notMem_reverse_blanks : [] ∉ blanks.map List.reverse := by decide

/-- Trimming takes white space off the two ends. -/
theorem exists_trim (t : Text) : ∃ g h, Blank g ∧ Blank h ∧ t = g ++ (trim t ++ h) := by
  obtain ⟨g, hg, ht⟩ := exists_strip blanks t
  obtain ⟨r, hr, hrest⟩ := exists_strip (blanks.map List.reverse) (trimLeft t).reverse
  refine ⟨g, r.reverse, hg, hr.reverse, ?_⟩
  have hrest : trimLeft t = trim t ++ r.reverse := by
    rw [← List.reverse_reverse (trimLeft t), hrest, List.reverse_append]
    rfl
  rw [← hrest]
  exact ht

theorem mem_of_mem_trim {a : UInt8} (h : a ∈ trim t) : a ∈ t := by
  obtain ⟨g, r, -, -, ht⟩ := exists_trim t
  rw [ht]
  simp [h]

/-- Nothing is taken off a text that neither starts nor ends with white space. -/
theorem trim_of_ends (hp : ∀ b ∈ blanks, ¬ b <+: t) (hs : ∀ b ∈ blanks, ¬ b <:+ t) :
    trim t = t := by
  have hleft : trimLeft t = t := strip_of_leading ((leading_eq_zero_iff nil_notMem_blanks).mpr hp)
  have hright : leading (blanks.map List.reverse) t.reverse = 0 := by
    rw [leading_eq_zero_iff nil_notMem_reverse_blanks]
    intro c hc
    obtain ⟨b, hb, rfl⟩ := List.mem_map.mp hc
    rw [List.reverse_prefix]
    exact hs b hb
  rw [trim, hleft, trimRight, strip_of_leading hright, List.reverse_reverse]

theorem length_blank (hb : b ∈ blanks) : b.length = 1 ∨ ∀ a ∈ b, 128 ≤ a := by
  have hall : blanks.all (fun b => b.length == 1 || b.all (128 ≤ ·)) = true := by decide
  simpa using List.all_eq_true.mp hall b hb

theorem eq_singleton_of_mem_blanks {a : UInt8} (hb : b ∈ blanks) (ha : a ∈ b) (hlt : a < 128) :
    b = [a] := by
  rcases length_blank hb with hlen | hlarge
  · obtain ⟨c, rfl⟩ := List.length_eq_one_iff.mp hlen
    rw [List.mem_singleton.mp ha]
  · exact absurd hlt (UInt8.not_lt.mpr (hlarge a ha))

/-- Nothing is taken off a text between two bytes of ASCII that are not white space. -/
theorem trim_of_ascii {a c : UInt8} (ha : a ∈ t.head?) (hc : c ∈ t.getLast?)
    (hlt : a < 128 ∧ c < 128) (hno : [a] ∉ blanks ∧ [c] ∉ blanks) : trim t = t := by
  apply trim_of_ends
  · rintro b hb ⟨r, rfl⟩
    cases b with
    | nil => exact nil_notMem_blanks hb
    | cons x xs =>
      obtain rfl : x = a := by simpa using ha
      exact hno.1 (eq_singleton_of_mem_blanks hb List.mem_cons_self hlt.1 ▸ hb)
  · rintro b hb ⟨r, rfl⟩
    have hne : b ≠ [] := fun h => nil_notMem_blanks (h ▸ hb)
    have hlast : c ∈ b := by
      rw [List.getLast?_append_of_ne_nil _ hne] at hc
      exact List.mem_of_getLast? hc
    exact hno.2 (eq_singleton_of_mem_blanks hb hlast hlt.2 ▸ hb)

/-- The bytes of a text that are not part of its white space. -/
def solid (t : Text) : Text :=
  match t with
  | [] => []
  | b :: bs =>
    match leading blanks (b :: bs) with
    | 0 => b :: solid bs
    | n + 1 => solid (bs.drop n)
termination_by t.length
decreasing_by
  · simp
  · simp only [List.length_drop, List.length_cons]; omega

theorem leading_blank (hb : b ∈ blanks) (t : Text) : leading blanks (b ++ t) = b.length := by
  have hfree : ∀ b ∈ blanks, ∀ c ∈ blanks, c <+: b → c = b := by decide
  have hfree' : ∀ b ∈ blanks, ∀ c ∈ blanks, b <+: c → c = b := by decide
  unfold leading
  cases hf : blanks.find? (·.isPrefixOf (b ++ t)) with
  | none =>
    have hnone := List.find?_eq_none.mp hf b hb
    simp at hnone
  | some c =>
    have hc := List.mem_of_find?_eq_some hf
    have hp : c <+: b ++ t := List.isPrefixOf_iff_prefix.mp (by simpa using List.find?_some hf)
    have heq : c = b := by
      rcases List.prefix_or_prefix_of_prefix hp (List.prefix_append b t) with hle | hle
      · exact hfree b hb c hc hle
      · exact hfree' b hb c hc hle
    rw [heq]
    rfl

theorem trim_blank_append (hb : b ∈ blanks) (t : Text) : trim (b ++ t) = trim t := by
  have hlead := leading_blank hb t
  have hpos : b.length ≠ 0 := fun h => nil_notMem_blanks (List.length_eq_zero_iff.mp h ▸ hb)
  have hleft : trimLeft (b ++ t) = trimLeft t := by
    rw [trimLeft, strip]
    split
    · omega
    · rename_i n hn
      have hdrop : n + 1 = b.length := by rw [← hlead, hn]
      rw [hdrop, List.drop_left]
      rfl
  rw [trim, hleft, trim]

@[simp] theorem solid_nil : solid [] = [] := by
  unfold solid
  rfl

theorem solid_blank (hb : b ∈ blanks) (t : Text) : solid (b ++ t) = solid t := by
  have hlead := leading_blank hb t
  cases b with
  | nil => exact absurd hb nil_notMem_blanks
  | cons a as =>
    rw [List.cons_append] at hlead ⊢
    rw [solid, hlead, List.length_cons]
    dsimp only
    rw [List.drop_left]

theorem solid_cons {a : UInt8} (ha : ∀ b ∈ blanks, ¬ b <+: a :: t) :
    solid (a :: t) = a :: solid t := by
  rw [solid, (leading_eq_zero_iff nil_notMem_blanks).mpr ha]

/-- A text is empty, starts with a white space character or starts with another byte. -/
theorem byte_induction {P : Text → Prop} (nil : P [])
    (blank : ∀ b ∈ blanks, ∀ t, P t → P (b ++ t))
    (byte : ∀ a t, (∀ b ∈ blanks, ¬ b <+: a :: t) → P t → P (a :: t)) (t : Text) : P t := by
  fun_induction solid t with
  | case1 => exact nil
  | case2 a as h ih => exact byte a as ((leading_eq_zero_iff nil_notMem_blanks).mp h) ih
  | case3 a as n h ih =>
    obtain ⟨b, hb, ht⟩ := exists_of_leading h
    rw [List.drop_succ_cons] at ht
    rw [ht]
    exact blank b hb _ ih

/-- No white space character starts in `x` and ends in `y`. -/
def Seam (x y : Text) : Prop := ∀ u v, u ≠ [] → v ≠ [] → u <:+ x → v <+: y → u ++ v ∉ blanks

theorem solid_append (h : Seam x y) : solid (x ++ y) = solid x ++ solid y := by
  induction x using byte_induction with
  | nil => simp
  | blank b hb t ih =>
    have ht : Seam t y := fun u v hu hv hs => h u v hu hv (hs.trans (List.suffix_append b t))
    rw [List.append_assoc, solid_blank hb, solid_blank hb, ih ht]
  | byte a t ha ih =>
    have ht : Seam t y := fun u v hu hv hs => h u v hu hv (hs.trans (List.suffix_cons a t))
    -- A white space character at the front would end in `t`, or in `y` across the seam.
    have hno : ∀ b ∈ blanks, ¬ b <+: a :: (t ++ y) := by
      intro b hb hp
      rcases List.prefix_or_prefix_of_prefix hp (List.prefix_append (a :: t) y) with hle | ⟨v, rfl⟩
      · exact ha b hb hle
      · have hv : v <+: y := (List.prefix_append_right_inj (a :: t)).mp hp
        by_cases hv0 : v = []
        · subst hv0
          exact ha _ hb (by simp)
        · exact h (a :: t) v (List.cons_ne_nil a t) hv0 (List.suffix_refl _) hv hb
    rw [List.cons_append, solid_cons hno, solid_cons ha, ih ht, List.cons_append]

/-! Where texts can be cut. -/

theorem head_blank (hb : b ∈ blanks) : ∀ a ∈ b.head?, a < 128 ∨ 192 ≤ a := by
  have hall : blanks.all (·.head?.all fun a => a < 128 || 192 ≤ a) = true := by decide
  intro a ha
  have hhead := List.all_eq_true.mp hall b hb
  rw [Option.mem_def.mp ha] at hhead
  simpa using hhead

theorem tail_blank (hb : b ∈ blanks) : ∀ a ∈ b.tail, 128 ≤ a ∧ a < 192 := by
  have hall : blanks.all (·.tail.all fun a => 128 ≤ a && a < 192) = true := by decide
  simpa using List.all_eq_true.mp hall b hb

/-- A text can be cut behind a byte of ASCII. -/
theorem seam_of_getLast (h : ∀ a ∈ x.getLast?, a < 128) : Seam x y := by
  rintro u v hu hv ⟨w, rfl⟩ - hb
  have hlast := List.getLast?_eq_some_getLast hu
  have hsmall : u.getLast hu < 128 := by
    apply h
    rw [List.getLast?_append, hlast]
    rfl
  have hmem := List.mem_append_left v (List.getLast_mem hu)
  have hsingle := eq_singleton_of_mem_blanks hb hmem hsmall
  have hlen := congrArg List.length hsingle
  have hulen := List.length_pos_iff.mpr hu
  have hvlen := List.length_pos_iff.mpr hv
  rw [List.length_append, List.length_singleton] at hlen
  omega

/-- A text can be cut before a byte that starts a character. -/
theorem seam_of_head (h : ∀ a ∈ y.head?, a < 128 ∨ 192 ≤ a) : Seam x y := by
  rintro u v hu hv - ⟨w, rfl⟩ hb
  obtain ⟨a, as, rfl⟩ := List.exists_cons_of_ne_nil hv
  have hmem : a ∈ (u ++ a :: as).tail := by
    rw [List.tail_append_of_ne_nil hu]
    simp
  obtain ⟨hlow, hhigh⟩ := tail_blank hb a hmem
  rcases h a rfl with hlt | hge
  · exact absurd hlt (UInt8.not_lt.mpr hlow)
  · exact absurd hhigh (UInt8.not_lt.mpr hge)

theorem Blank.append (hg : Blank g) (hh : Blank h) : Blank (g ++ h) := MadeOf.append hg hh

theorem Blank.head (hg : Blank g) : ∀ a ∈ g.head?, a < 128 ∨ 192 ≤ a := by
  cases hg with
  | nil => simp
  | @cons b t hb ht =>
    cases b with
    | nil => exact absurd hb nil_notMem_blanks
    | cons a as => simpa using head_blank hb a rfl

theorem Blank.solid_append (hg : Blank g) (t : Text) : solid (g ++ t) = solid t := by
  induction hg with
  | nil => rfl
  | cons hb _ ih => rw [List.append_assoc, solid_blank hb, ih]

theorem Blank.solid (hg : Blank g) : solid g = [] := by
  have hg := hg.solid_append []
  rwa [List.append_nil, solid_nil] at hg

theorem solid_trim (t : Text) : solid (trim t) = solid t := by
  obtain ⟨g, h, hg, hh, ht⟩ := exists_trim t
  have hback : Seam (trim t) h := seam_of_head hh.head
  calc
    solid (trim t) = solid (trim t) ++ solid h := by rw [hh.solid, List.append_nil]
    _ = solid (g ++ (trim t ++ h)) := by rw [hg.solid_append, solid_append hback]
    _ = solid t := by rw [← ht]

/-- A text of white space only is trimmed to nothing, and no other text is. -/
theorem solid_eq_nil_iff : solid t = [] ↔ trim t = [] := by
  constructor
  · intro hs
    obtain ⟨g, hg, ht⟩ := exists_strip blanks t
    rw [ht, Blank.solid_append hg] at hs
    have hno := (leading_eq_zero_iff nil_notMem_blanks).mp (leading_strip blanks t)
    have hleft : trimLeft t = [] := by
      cases hl : strip blanks t with
      | nil => exact hl
      | cons a as =>
        rw [hl] at hs hno
        rw [solid_cons hno] at hs
        cases hs
    obtain ⟨r, -, hr⟩ := exists_strip (blanks.map List.reverse) (trimLeft t).reverse
    rw [hleft] at hr
    rw [trim, trimRight, hleft, (List.append_eq_nil_iff.mp hr.symm).2]
    rfl
  · intro ht
    rw [← solid_trim, ht, solid_nil]

end BarrelAsm.Text
