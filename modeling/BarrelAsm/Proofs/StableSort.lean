import BarrelAsm.Proofs.Order
import Mathlib.Order.Lattice

/-! The sort is stable. Where `before` compares the keys of all elements that occur, the result is
in the order of the keys, and elements with the same key stay in the order in which they came. There
is only one such list, so that a list in order is left as it is. -/
namespace BarrelAsm.Order

variable {α β : Type} [LinearOrder β] {key : α → β}

/-- No element has a greater key than one behind it. -/
def Ascending (key : α → β) (xs : List α) : Prop := xs.Pairwise fun x y => key x ≤ key y

/-- `ys` is in the order of the keys, and for each key it has the elements of `xs` as they came. -/
structure StableSort (key : α → β) (xs ys : List α) : Prop where
  ascending : Ascending key ys
  stable : ∀ k, ys.filter (key · = k) = xs.filter (key · = k)

section Laws

variable {xs xs' ys ys' zs lower upper : List α}

theorem Ascending.sublist (h : Ascending key ys) (hs : xs.Sublist ys) : Ascending key xs :=
  List.Pairwise.sublist hs h

theorem Ascending.cross (h : Ascending key (xs ++ ys)) : ∀ x ∈ xs, ∀ y ∈ ys, key x ≤ key y :=
  (List.pairwise_append.mp h).2.2

theorem StableSort.of_ascending (h : Ascending key xs) : StableSort key xs xs := ⟨h, fun _ => rfl⟩

theorem StableSort.of_filter (h : StableSort key xs ys)
    (hz : ∀ k, xs.filter (key · = k) = zs.filter (key · = k)) : StableSort key zs ys :=
  ⟨h.ascending, fun k => (h.stable k).trans (hz k)⟩

theorem mem_of_filter {x : α} (h : ∀ k, xs.filter (key · = k) = ys.filter (key · = k))
    (hx : x ∈ xs) : x ∈ ys := by
  have hm : x ∈ xs.filter (key · = key x) := by simpa using hx
  rw [h] at hm
  exact List.mem_of_mem_filter hm

/-- The first element has the least key, and it comes first among those that have it. -/
theorem Ascending.eq_of_filter (hxs : Ascending key xs) (hys : Ascending key ys)
    (h : ∀ k, xs.filter (key · = k) = ys.filter (key · = k)) : xs = ys := by
  induction xs generalizing ys with
  | nil =>
    refine (List.eq_nil_iff_forall_not_mem.mpr fun y hy => ?_).symm
    exact List.not_mem_nil (mem_of_filter (fun k => (h k).symm) hy)
  | cons x xs ih =>
    cases ys with
    | nil => exact absurd (mem_of_filter h List.mem_cons_self) List.not_mem_nil
    | cons y ys =>
      obtain ⟨hx, hxtail⟩ := List.pairwise_cons.mp hxs
      obtain ⟨hy, hytail⟩ := List.pairwise_cons.mp hys
      have hxy : key x ≤ key y := by
        have hmem : y ∈ x :: xs := mem_of_filter (fun k => (h k).symm) List.mem_cons_self
        rcases List.mem_cons.mp hmem with rfl | hmem
        · exact le_refl _
        · exact hx y hmem
      have hyx : key y ≤ key x := by
        have hmem : x ∈ y :: ys := mem_of_filter h List.mem_cons_self
        rcases List.mem_cons.mp hmem with rfl | hmem
        · exact le_refl _
        · exact hy x hmem
      have hhead := h (key x)
      simp only [List.filter_cons, le_antisymm hyx hxy, decide_true, if_true,
        List.cons.injEq] at hhead
      obtain rfl := hhead.1
      refine congrArg (x :: ·) (ih hxtail hytail fun k => ?_)
      have hk := h k
      by_cases hkey : key x = k
      · simpa [List.filter_cons, hkey] using hk
      · simpa [List.filter_cons, hkey] using hk

theorem StableSort.unique (hy : StableSort key xs ys) (hz : StableSort key xs zs) : ys = zs :=
  hy.ascending.eq_of_filter hz.ascending fun k => (hy.stable k).trans (hz.stable k).symm

theorem StableSort.append (hl : StableSort key xs ys) (hu : StableSort key xs' ys')
    (h : ∀ x ∈ xs, ∀ x' ∈ xs', key x ≤ key x') : StableSort key (xs ++ xs') (ys ++ ys') where
  ascending := by
    refine List.pairwise_append.mpr ⟨hl.ascending, hu.ascending, fun y hy y' hy' => ?_⟩
    exact h y (mem_of_filter hl.stable hy) y' (mem_of_filter hu.stable hy')
  stable k := by rw [List.filter_append, List.filter_append, hl.stable, hu.stable]

/-- Lists without a common key can change places. -/
theorem filter_append_comm (h : ∀ x ∈ xs, ∀ y ∈ ys, key x < key y) (k : β) :
    (xs ++ ys).filter (key · = k) = (ys ++ xs).filter (key · = k) := by
  have hnone : xs.filter (key · = k) = [] ∨ ys.filter (key · = k) = [] := by
    by_cases hx : ∃ x ∈ xs, key x = k
    · obtain ⟨x, hx, rfl⟩ := hx
      refine .inr (List.filter_eq_nil_iff.mpr fun y hy => ?_)
      simpa using (h x hx y hy).ne'
    · refine .inl (List.filter_eq_nil_iff.mpr fun x hm => ?_)
      simpa using fun hk => hx ⟨x, hm, hk⟩
  rw [List.filter_append, List.filter_append]
  rcases hnone with hnone | hnone
  · rw [hnone, List.append_nil, List.nil_append]
  · rw [hnone, List.append_nil, List.nil_append]

/-- Two lists in order are cut, and the first parts are sorted in front of the others. What passes
`xs'` on its way to the front must have smaller keys. -/
theorem StableSort.interleave (hl : StableSort key (xs ++ ys) lower)
    (hu : StableSort key (xs' ++ ys') upper) (hxs : Ascending key (xs ++ xs'))
    (hys : Ascending key (ys ++ ys')) (hle : ∀ x ∈ xs, ∀ y ∈ ys', key x ≤ key y)
    (hlt : ∀ y ∈ ys, ∀ x ∈ xs', key y < key x) :
    StableSort key ((xs ++ xs') ++ (ys ++ ys')) (lower ++ upper) := by
  have hcross : ∀ x ∈ xs ++ ys, ∀ y ∈ xs' ++ ys', key x ≤ key y := by
    intro x hx y hy
    rcases List.mem_append.mp hx with hx | hx
    · rcases List.mem_append.mp hy with hy | hy
      · exact hxs.cross x hx y hy
      · exact hle x hx y hy
    · rcases List.mem_append.mp hy with hy | hy
      · exact (hlt x hx y hy).le
      · exact hys.cross x hx y hy
  refine (hl.append hu hcross).of_filter fun k => ?_
  have hswap := filter_append_comm hlt k
  simp only [List.filter_append, List.append_assoc] at hswap ⊢
  rw [← List.append_assoc (ys.filter _), hswap, List.append_assoc]

/-- Whatever is in front of `x` may have its key, but nothing behind it. -/
theorem StableSort.insert_behind {x : α} (hxs : Ascending key (xs ++ ys))
    (hle : ∀ y ∈ xs, key y ≤ key x) (hlt : ∀ y ∈ ys, key x < key y) :
    StableSort key ((xs ++ ys) ++ [x]) (xs ++ x :: ys) := by
  have hl : StableSort key (xs ++ [x]) (xs ++ [x]) := by
    refine .of_ascending (List.pairwise_append.mpr ⟨?_, List.pairwise_singleton _ _, ?_⟩)
    · exact hxs.sublist (List.sublist_append_left xs ys)
    · simpa using hle
  have hu : StableSort key (ys ++ []) ys := by
    rw [List.append_nil]
    exact .of_ascending (hxs.sublist (List.sublist_append_right xs ys))
  simpa using hl.interleave hu hxs (List.pairwise_singleton _ x) (by simp) (by simpa using hlt)

/-- Whatever is behind `x` may have its key, but nothing in front of it. -/
theorem StableSort.insert_before {x : α} (hxs : Ascending key (xs ++ ys))
    (hlt : ∀ y ∈ xs, key y < key x) (hle : ∀ y ∈ ys, key x ≤ key y) :
    StableSort key ([x] ++ (xs ++ ys)) (xs ++ x :: ys) := by
  have hl : StableSort key ([] ++ xs) xs :=
    .of_ascending (hxs.sublist (List.sublist_append_left xs ys))
  have hu : StableSort key ([x] ++ ys) (x :: ys) := by
    refine .of_ascending (List.pairwise_cons.mpr ⟨hle, ?_⟩)
    exact hxs.sublist (List.sublist_append_right xs ys)
  exact hl.interleave hu (List.pairwise_singleton _ x) hxs (by simp) (by simpa using hlt)

end Laws

section Places

variable {xs : List α} {k : Nat} {Q : α → Prop}

theorem Ascending.take_drop (h : Ascending key xs) (k : Nat) :
    ∀ x ∈ xs.take k, ∀ y ∈ xs.drop k, key x ≤ key y := by
  rw [← List.take_append_drop k xs] at h
  exact h.cross

/-- What follows from the last of the first `k` elements holds of all of them. -/
theorem Ascending.forall_take (h : Ascending key xs) (hk : k ≤ xs.length)
    (hQ : ∀ e x, 0 < k → xs[k - 1]? = some e → key x ≤ key e → Q x) : ∀ x ∈ xs.take k, Q x := by
  intro x hx
  cases k with
  | zero => simp at hx
  | succ k =>
    refine hQ xs[k] x (Nat.succ_pos k) (List.getElem?_eq_getElem hk) ?_
    rw [← List.take_append_getElem hk] at hx
    rcases List.mem_append.mp hx with hm | hm
    · refine h.take_drop k x hm _ ?_
      rw [List.drop_eq_getElem_cons hk]
      exact List.mem_cons_self
    · rw [List.mem_singleton.mp hm]

/-- What follows from the first element behind the first `k` holds of all behind those. -/
theorem Ascending.forall_drop (h : Ascending key xs)
    (hQ : ∀ e x, k < xs.length → xs[k]? = some e → key e ≤ key x → Q x) : ∀ x ∈ xs.drop k, Q x := by
  intro x hx
  have hk : k < xs.length := by
    have hpos := List.length_pos_of_mem hx
    rw [List.length_drop] at hpos
    omega
  refine hQ xs[k] x hk (List.getElem?_eq_getElem hk) ?_
  rw [List.drop_eq_getElem_cons hk] at hx
  rcases List.mem_cons.mp hx with rfl | hm
  · exact le_refl _
  · refine h.take_drop (k + 1) _ ?_ x hm
    rw [← List.take_append_getElem hk]
    exact List.mem_append_right _ List.mem_cons_self

/-- The search ends between a place where it goes on to the right and one where it does not. -/
theorem bisect_boundary (right : Nat → Bool) {lo hi : Nat} (h : lo ≤ hi) :
    lo ≤ bisect right lo hi ∧
      (lo < bisect right lo hi → right (bisect right lo hi - 1) = true) ∧
      (bisect right lo hi < hi → right (bisect right lo hi) = false) := by
  fun_induction bisect right lo hi with
  | case1 lo hi hlt hmid ih =>
    obtain ⟨hlo, hbelow, habove⟩ := ih (by omega)
    refine ⟨by omega, fun _ => ?_, habove⟩
    rcases Nat.lt_or_eq_of_le hlo with hlo | hlo
    · exact hbelow hlo
    · rw [← hlo]
      exact hmid
  | case2 lo hi hlt hmid ih =>
    obtain ⟨hlo, hbelow, habove⟩ := ih (by omega)
    refine ⟨hlo, hbelow, fun _ => ?_⟩
    have hle : bisect right lo ((lo + hi) / 2) ≤ (lo + hi) / 2 := bisect_le right (by omega)
    rcases Nat.lt_or_eq_of_le hle with hhi | hhi
    · exact habove hhi
    · rw [hhi]
      simpa using hmid
  | case3 lo hi hlt =>
    exact ⟨Nat.le_refl _, fun hk => absurd hk (Nat.lt_irrefl _), fun hk => absurd hk hlt⟩

end Places

section Sorting

variable {before : α → α → Bool} {P : α → Prop}
  (hb : ∀ x y, P x → P y → (before x y = true ↔ key x < key y)) {xs ys : List α} {x y : α}

include hb

theorem related_iff {o o' : Option α} (ho : o = some x) (ho' : o' = some y) (hx : P x) (hy : P y) :
    related before o o' = true ↔ key x < key y := by
  rw [ho, ho']
  exact hb x y hx hy

theorem not_related_iff {o o' : Option α} (ho : o = some x) (ho' : o' = some y) (hx : P x)
    (hy : P y) : related before o o' = false ↔ key y ≤ key x := by
  rw [← Bool.not_eq_true, related_iff hb ho ho' hx hy, not_lt]

/-- The place for an element in front of its equals. -/
theorem place_before (hys : Ascending key ys) (hpy : ∀ y ∈ ys, P y) (hx : P x) {k : Nat}
    (hk : bisect (fun i => related before ys[i]? (some x)) 0 ys.length = k) :
    (∀ y ∈ ys.take k, key y < key x) ∧ ∀ y ∈ ys.drop k, key x ≤ key y := by
  obtain ⟨-, hbelow, habove⟩ :=
    bisect_boundary (fun i => related before ys[i]? (some x)) (Nat.zero_le ys.length)
  have hle := bisect_le (fun i => related before ys[i]? (some x)) (Nat.zero_le ys.length)
  rw [hk] at hbelow habove hle
  refine ⟨hys.forall_take hle fun e y hpos he hye => ?_, hys.forall_drop fun e y hlt he hey => ?_⟩
  · have hlt := (related_iff hb he rfl (hpy e (List.mem_of_getElem? he)) hx).mp (hbelow hpos)
    exact hye.trans_lt hlt
  · have hle := (not_related_iff hb he rfl (hpy e (List.mem_of_getElem? he)) hx).mp (habove hlt)
    exact hle.trans hey

/-- The place for an element behind its equals. -/
theorem place_behind (hxs : Ascending key xs) (hpx : ∀ x ∈ xs, P x) (hy : P y) {k : Nat}
    (hk : bisect (fun i => !related before (some y) xs[i]?) 0 xs.length = k) :
    (∀ x ∈ xs.take k, key x ≤ key y) ∧ ∀ x ∈ xs.drop k, key y < key x := by
  obtain ⟨-, hbelow, habove⟩ :=
    bisect_boundary (fun i => !related before (some y) xs[i]?) (Nat.zero_le xs.length)
  have hle := bisect_le (fun i => !related before (some y) xs[i]?) (Nat.zero_le xs.length)
  rw [hk] at hbelow habove hle
  rw [Bool.not_eq_true'] at hbelow
  rw [Bool.not_eq_false'] at habove
  refine ⟨hxs.forall_take hle fun e x hpos he hxe => ?_, hxs.forall_drop fun e x hlt he hex => ?_⟩
  · have hle := (not_related_iff hb rfl he hy (hpx e (List.mem_of_getElem? he))).mp (hbelow hpos)
    exact hxe.trans hle
  · have hlt := (related_iff hb rfl he hy (hpx e (List.mem_of_getElem? he))).mp (habove hlt)
    exact hlt.trans_le hex

/-- What goes into the first half of a merge belongs in front of the rest. -/
theorem splitPoint_separates (hxs : Ascending key xs) (hys : Ascending key ys)
    (hpx : ∀ x ∈ xs, P x) (hpy : ∀ y ∈ ys, P y) {k m : Nat} (hk : splitPoint before xs ys = k)
    (hm : (xs.length + ys.length) / 2 = m) :
    (∀ x ∈ xs.take k, ∀ y ∈ ys.drop (m - k), key x ≤ key y) ∧
      ∀ y ∈ ys.take (m - k), ∀ x ∈ xs.drop k, key y < key x := by
  have hhi : k ≤ min m xs.length := by
    rw [← hk, ← hm]
    exact splitPoint_le before xs ys
  obtain ⟨hlo, hbelow, habove⟩ : m - ys.length ≤ k ∧
      (m - ys.length < k → related before ys[m - 1 - (k - 1)]? xs[k - 1]? = false) ∧
      (k < min m xs.length → related before ys[m - 1 - k]? xs[k]? = true) := by
    have hcut := bisect_boundary (fun i => !related before ys[m - 1 - i]? xs[i]?)
      (show m - ys.length ≤ min m xs.length by omega)
    have hplace : bisect (fun i => !related before ys[m - 1 - i]? xs[i]?) (m - ys.length)
        (min m xs.length) = k := by
      rw [← hk, ← hm]
      rfl
    rw [hplace] at hcut
    simpa using hcut
  constructor
  · refine hxs.forall_take (by omega) fun e x hpos he hxe => ?_
    refine hys.forall_drop fun f y hlt hf hfy => ?_
    have hnot := hbelow (by omega)
    rw [show m - 1 - (k - 1) = m - k by omega, not_related_iff hb hf he
      (hpy f (List.mem_of_getElem? hf)) (hpx e (List.mem_of_getElem? he))] at hnot
    exact (hxe.trans hnot).trans hfy
  · refine hys.forall_take (by omega) fun f y hpos hf hyf => ?_
    refine hxs.forall_drop fun e x hlt he hex => ?_
    have hless := habove (by omega)
    rw [show m - 1 - k = m - k - 1 by omega, related_iff hb hf he
      (hpy f (List.mem_of_getElem? hf)) (hpx e (List.mem_of_getElem? he))] at hless
    exact (hyf.trans_lt hless).trans_le hex

theorem insertRight_stable (hs : Ascending key xs) (hp : ∀ y ∈ xs, P y) (hx : P x) :
    StableSort key (xs ++ [x]) (insertRight before xs x) := by
  have hsplit := insertRight_parts before xs x
  have hle : ∀ y ∈ (xs.reverse.dropWhile (before x)).reverse, key y ≤ key x := by
    have hstop := List.head?_dropWhile_not (before x) xs.reverse
    cases hd : xs.reverse.dropWhile (before x) with
    | nil => simp
    | cons e rest =>
      rw [hd] at hsplit hstop
      rw [List.reverse_cons] at hsplit ⊢
      rw [← hsplit] at hs hp
      have he : key e ≤ key x := by
        rw [← not_lt, ← hb x e hx (hp e (by simp))]
        exact Bool.eq_false_iff.mp hstop
      intro y hy
      rcases List.mem_append.mp hy with hy | hy
      · exact ((hs.sublist (List.sublist_append_left _ _)).cross y hy e List.mem_cons_self).trans he
      · rwa [List.mem_singleton.mp hy]
  have hlt : ∀ y ∈ (xs.reverse.takeWhile (before x)).reverse, key x < key y := by
    intro y hy
    have hmem : y ∈ xs := by
      rw [← hsplit]
      exact List.mem_append_right _ hy
    have hbefore := List.all_eq_true.mp List.all_takeWhile y (List.mem_reverse.mp hy)
    exact (hb x y hx (hp y hmem)).mp hbefore
  rw [← hsplit] at hs
  have hinsert := StableSort.insert_behind hs hle hlt
  rwa [hsplit] at hinsert

theorem foldl_insertRight_stable {done acc : List α} (h : StableSort key done acc)
    (hd : ∀ x ∈ done, P x) (hp : ∀ x ∈ xs, P x) :
    StableSort key (done ++ xs) (xs.foldl (insertRight before) acc) := by
  induction xs generalizing done acc with
  | nil => simpa using h
  | cons x xs ih =>
    have hx : P x := hp x List.mem_cons_self
    have hstep : StableSort key (done ++ [x]) (insertRight before acc x) := by
      refine (insertRight_stable hb h.ascending ?_ hx).of_filter fun k => ?_
      · exact fun y hy => hd y (mem_of_filter h.stable hy)
      · rw [List.filter_append, List.filter_append, h.stable]
    have hall : ∀ y ∈ done ++ [x], P y := by
      intro y hy
      rcases List.mem_append.mp hy with hy | hy
      · exact hd y hy
      · rwa [List.mem_singleton.mp hy]
    simpa using ih hstep hall fun y hy => hp y (List.mem_cons_of_mem x hy)

theorem insertionSort_stable (hp : ∀ x ∈ xs, P x) :
    StableSort key xs (insertionSort before xs) :=
  foldl_insertRight_stable hb (.of_ascending List.Pairwise.nil) (by simp) hp

theorem symMerge_stable (hxs : Ascending key xs) (hys : Ascending key ys) (hpx : ∀ x ∈ xs, P x)
    (hpy : ∀ y ∈ ys, P y) : StableSort key (xs ++ ys) (symMerge before xs ys) := by
  fun_induction symMerge before xs ys with
  | case1 ys => exact .of_ascending hys
  | case2 xs =>
    rw [List.append_nil]
    exact .of_ascending hxs
  | case3 x ys _ k =>
    obtain ⟨hlt, hle⟩ := place_before hb hys hpy (hpx x List.mem_cons_self) rfl
    rw [← List.take_append_drop k ys] at hys
    have hinsert := StableSort.insert_before hys hlt hle
    rwa [List.take_append_drop] at hinsert
  | case4 xs y _ _ k =>
    obtain ⟨hle, hlt⟩ := place_behind hb hxs hpx (hpy y List.mem_cons_self) rfl
    rw [← List.take_append_drop k xs] at hxs
    have hinsert := StableSort.insert_behind hxs hle hlt
    rwa [List.take_append_drop] at hinsert
  | case5 x x' xs y y' ys k m ih₁ ih₂ =>
    obtain ⟨hle, hlt⟩ := splitPoint_separates hb hxs hys hpx hpy (k := k) (m := m) rfl rfl
    have hl := ih₁ (hxs.sublist (List.take_sublist _ _)) (hys.sublist (List.take_sublist _ _))
      (fun z hz => hpx z (List.mem_of_mem_take hz)) fun z hz => hpy z (List.mem_of_mem_take hz)
    have hu := ih₂ (hxs.sublist (List.drop_sublist _ _)) (hys.sublist (List.drop_sublist _ _))
      (fun z hz => hpx z (List.mem_of_mem_drop hz)) fun z hz => hpy z (List.mem_of_mem_drop hz)
    have hmerge := hl.interleave hu (by rwa [List.take_append_drop])
      (by rwa [List.take_append_drop]) hle hlt
    rwa [List.take_append_drop, List.take_append_drop] at hmerge

/-- Blocks in order stay so when they are merged two by two, and no two elements of one key change
places. -/
theorem mergePairs_stable {blocks : List (List α)} (hs : ∀ b ∈ blocks, Ascending key b)
    (hp : ∀ x ∈ blocks.flatten, P x) :
    (∀ b ∈ mergePairs before blocks, Ascending key b) ∧
      ∀ k, (mergePairs before blocks).flatten.filter (key · = k) =
        blocks.flatten.filter (key · = k) := by
  fun_induction mergePairs before blocks with
  | case1 a b rest ih =>
    simp only [List.flatten_cons, List.mem_append] at hp
    simp only [List.mem_cons, forall_eq_or_imp] at hs
    obtain ⟨hrest, hfilter⟩ := ih hs.2.2 fun x hx => hp x (.inr (.inr hx))
    have hmerge : StableSort key (a ++ b) (symMerge before a b) :=
      symMerge_stable hb hs.1 hs.2.1 (fun x hx => hp x (.inl hx)) fun x hx => hp x (.inr (.inl hx))
    refine ⟨List.forall_mem_cons.mpr ⟨hmerge.ascending, hrest⟩, fun k => ?_⟩
    simp only [List.flatten_cons, ← List.append_assoc]
    rw [List.filter_append, List.filter_append, hmerge.stable, hfilter]
  | case2 blocks _ => exact ⟨hs, fun _ => rfl⟩

theorem mergeBlocks_stable {blocks : List (List α)} (hs : ∀ b ∈ blocks, Ascending key b)
    (hp : ∀ x ∈ blocks.flatten, P x) :
    StableSort key blocks.flatten (mergeBlocks before blocks) := by
  fun_induction mergeBlocks before blocks with
  | case1 => exact .of_ascending List.Pairwise.nil
  | case2 block =>
    rw [List.flatten_singleton]
    exact .of_ascending (hs block List.mem_cons_self)
  | case3 a b rest ih =>
    obtain ⟨hpairs, hfilter⟩ := mergePairs_stable hb hs hp
    exact (ih hpairs fun x hx => hp x (mem_of_filter hfilter hx)).of_filter hfilter

theorem sortedBlocks_stable (hp : ∀ x ∈ xs, P x) :
    (∀ b ∈ sortedBlocks before xs, Ascending key b) ∧
      ∀ k, (sortedBlocks before xs).flatten.filter (key · = k) = xs.filter (key · = k) := by
  fun_induction sortedBlocks before xs with
  | case1 => exact ⟨by simp, fun _ => rfl⟩
  | case2 x xs ih =>
    have hdrop : xs.drop (blockSize - 1) = (x :: xs).drop blockSize := rfl
    rw [hdrop] at ih ⊢
    obtain ⟨hrest, hfilter⟩ := ih fun y hy => hp y (List.mem_of_mem_drop hy)
    have hblock : StableSort key ((x :: xs).take blockSize)
        (insertionSort before ((x :: xs).take blockSize)) :=
      insertionSort_stable hb fun y hy => hp y (List.mem_of_mem_take hy)
    refine ⟨List.forall_mem_cons.mpr ⟨hblock.ascending, hrest⟩, fun k => ?_⟩
    rw [List.flatten_cons, List.filter_append, hblock.stable, hfilter, ← List.filter_append,
      List.take_append_drop]

theorem sort_stable (hp : ∀ x ∈ xs, P x) : StableSort key xs (sort before xs) := by
  obtain ⟨hblocks, hfilter⟩ := sortedBlocks_stable hb hp
  have hmerged := mergeBlocks_stable hb hblocks fun x hx => hp x (mem_of_filter hfilter hx)
  exact hmerged.of_filter hfilter

theorem sort_eq_self (hp : ∀ x ∈ xs, P x) (h : Ascending key xs) : sort before xs = xs :=
  (sort_stable hb hp).unique (.of_ascending h)

end Sorting

end BarrelAsm.Order
