import BarrelAsm.Process.Order
import Mathlib.Data.List.Basic

/-! Sorting rearranges: nothing is lost or added by insertion, merging or the whole sort. -/
namespace BarrelAsm.Order

variable {α : Type} (before : α → α → Bool)

theorem insertRight_parts (sorted : List α) (x : α) :
    (sorted.reverse.dropWhile (before x)).reverse ++
      (sorted.reverse.takeWhile (before x)).reverse = sorted := by
  rw [← List.reverse_append, List.takeWhile_append_dropWhile, List.reverse_reverse]

theorem insertRight_perm (sorted : List α) (x : α) :
    (insertRight before sorted x).Perm (x :: sorted) := by
  unfold insertRight
  refine List.perm_middle.trans (List.Perm.cons x ?_)
  rw [insertRight_parts]

theorem foldl_insertRight_perm (xs acc : List α) :
    (xs.foldl (insertRight before) acc).Perm (acc ++ xs) := by
  induction xs generalizing acc with
  | nil => simp
  | cons x xs ih =>
    refine (ih (insertRight before acc x)).trans ?_
    refine ((insertRight_perm before acc x).append_right xs).trans ?_
    exact List.perm_middle.symm

theorem insertionSort_perm (xs : List α) : (insertionSort before xs).Perm xs :=
  foldl_insertRight_perm before xs []

theorem insertAt_perm (k : Nat) (x : α) (xs : List α) :
    (xs.take k ++ x :: xs.drop k).Perm (x :: xs) := by
  refine List.perm_middle.trans ?_
  rw [List.take_append_drop]

theorem append_halves_perm (i j : Nat) (xs ys : List α) :
    ((xs.take i ++ ys.take j) ++ (xs.drop i ++ ys.drop j)).Perm (xs ++ ys) := by
  calc ((xs.take i ++ ys.take j) ++ (xs.drop i ++ ys.drop j)).Perm
        ((xs.take i ++ xs.drop i) ++ (ys.take j ++ ys.drop j)) := by
        simp only [List.append_assoc]
        refine List.Perm.append_left _ ?_
        simp only [← List.append_assoc]
        exact List.perm_append_comm.append_right _
    _ = xs ++ ys := by rw [List.take_append_drop, List.take_append_drop]

theorem symMerge_perm (xs ys : List α) : (symMerge before xs ys).Perm (xs ++ ys) := by
  fun_induction symMerge before xs ys with
  | case1 ys => simp
  | case2 xs => simp
  | case3 x ys _ k => exact insertAt_perm k x ys
  | case4 xs y _ _ k => exact (insertAt_perm k y xs).trans (List.perm_append_singleton y xs).symm
  | case5 x x' xs y y' ys k m ih₁ ih₂ =>
    exact (ih₁.append ih₂).trans (append_halves_perm k (m - k) _ _)

theorem flatten_mergePairs_perm (blocks : List (List α)) :
    (mergePairs before blocks).flatten.Perm blocks.flatten := by
  fun_induction mergePairs before blocks with
  | case1 a b rest ih =>
    simp only [List.flatten_cons, ← List.append_assoc]
    exact (symMerge_perm before a b).append ih
  | case2 blocks _ => exact List.Perm.refl _

theorem mergeBlocks_perm (blocks : List (List α)) :
    (mergeBlocks before blocks).Perm blocks.flatten := by
  fun_induction mergeBlocks before blocks with
  | case1 => exact List.Perm.refl _
  | case2 block => simp
  | case3 a b rest ih =>
    refine ih.trans ?_
    simp only [List.flatten_cons, ← List.append_assoc]
    exact (symMerge_perm before a b).append (flatten_mergePairs_perm before rest)

theorem flatten_sortedBlocks_perm (xs : List α) : (sortedBlocks before xs).flatten.Perm xs := by
  fun_induction sortedBlocks before xs with
  | case1 => exact List.Perm.refl _
  | case2 x xs ih =>
    rw [List.flatten_cons]
    refine ((insertionSort_perm before _).append ih).trans ?_
    have hdrop : xs.drop (blockSize - 1) = (x :: xs).drop blockSize := rfl
    rw [hdrop, List.take_append_drop]

theorem sort_perm (xs : List α) : (sort before xs).Perm xs :=
  (mergeBlocks_perm before _).trans (flatten_sortedBlocks_perm before xs)

end BarrelAsm.Order
