/-! A stable sort: insertion sort in blocks, then symmetric merges of neighbouring blocks.

`before x y` says that `x` belongs before `y`. Merging splits both runs so that the first half of
the result is settled, and goes on with the two halves. -/
namespace BarrelAsm.Order

variable {α : Type}

/-- Insert `x` behind the last element that it does not belong before, looking from the right. -/
def insertRight (before : α → α → Bool) (sorted : List α) (x : α) : List α :=
  (sorted.reverse.dropWhile (before x)).reverse ++
    x :: (sorted.reverse.takeWhile (before x)).reverse

def insertionSort (before : α → α → Bool) (xs : List α) : List α :=
  xs.foldl (insertRight before) []

/-- Halve the range from `lo` to `hi`, going right of the midpoint where `right` holds. -/
def bisect (right : Nat → Bool) (lo hi : Nat) : Nat :=
  if lo < hi then
    if right ((lo + hi) / 2) then bisect right ((lo + hi) / 2 + 1) hi
    else bisect right lo ((lo + hi) / 2)
  else lo
termination_by hi - lo

theorem bisect_le (right : Nat → Bool) {lo hi : Nat} (h : lo ≤ hi) : bisect right lo hi ≤ hi := by
  fun_induction bisect right lo hi with
  | case1 lo hi hlt _ ih => exact ih (by omega)
  | case2 lo hi hlt _ ih => have := ih (by omega); omega
  | case3 lo hi _ => exact h

/-- Whether two elements stand in the order `before`; an absent one does not. -/
def related (before : α → α → Bool) : Option α → Option α → Bool
  | some x, some y => before x y
  | _, _ => false

/-- How many elements of `xs` go into the first half of the merge of `xs` and `ys`. -/
def splitPoint (before : α → α → Bool) (xs ys : List α) : Nat :=
  let mid := (xs.length + ys.length) / 2
  bisect (fun i => !related before ys[mid - 1 - i]? xs[i]?) (mid - ys.length) (min mid xs.length)

theorem splitPoint_le (before : α → α → Bool) (xs ys : List α) :
    splitPoint before xs ys ≤ min ((xs.length + ys.length) / 2) xs.length :=
  bisect_le _ (by omega)

def symMerge (before : α → α → Bool) (xs ys : List α) : List α :=
  match xs, ys with
  | [], ys => ys
  | xs, [] => xs
  -- Of equal elements those of `xs` stay in front.
  | [x], ys =>
    let k := bisect (fun i => related before ys[i]? (some x)) 0 ys.length
    ys.take k ++ x :: ys.drop k
  | xs, [y] =>
    let k := bisect (fun i => !related before (some y) xs[i]?) 0 xs.length
    xs.take k ++ y :: xs.drop k
  | x :: x' :: xs, y :: y' :: ys =>
    let k := splitPoint before (x :: x' :: xs) (y :: y' :: ys)
    let m := ((x :: x' :: xs).length + (y :: y' :: ys).length) / 2
    symMerge before ((x :: x' :: xs).take k) ((y :: y' :: ys).take (m - k)) ++
      symMerge before ((x :: x' :: xs).drop k) ((y :: y' :: ys).drop (m - k))
termination_by xs.length + ys.length
decreasing_by
  all_goals
    have := splitPoint_le before (x :: x' :: xs) (y :: y' :: ys)
    simp only [List.length_take, List.length_drop, List.length_cons] at *
    omega

def mergePairs (before : α → α → Bool) : List (List α) → List (List α)
  | a :: b :: rest => symMerge before a b :: mergePairs before rest
  | blocks => blocks

theorem length_mergePairs_le (before : α → α → Bool) (blocks : List (List α)) :
    (mergePairs before blocks).length ≤ blocks.length := by
  fun_induction mergePairs before blocks with
  | case1 a b rest ih => simp only [List.length_cons]; omega
  | case2 blocks _ => exact Nat.le_refl _

def mergeBlocks (before : α → α → Bool) : List (List α) → List α
  | [] => []
  | [block] => block
  | a :: b :: rest => mergeBlocks before (symMerge before a b :: mergePairs before rest)
termination_by blocks => blocks.length
decreasing_by
  have := length_mergePairs_le before rest
  simp only [List.length_cons]
  omega

def blockSize : Nat := 20

def sortedBlocks (before : α → α → Bool) (xs : List α) : List (List α) :=
  match xs with
  | [] => []
  | x :: xs =>
    insertionSort before ((x :: xs).take blockSize) ::
      sortedBlocks before (xs.drop (blockSize - 1))
termination_by xs.length
decreasing_by simp only [List.length_drop, List.length_cons]; omega

def sort (before : α → α → Bool) (xs : List α) : List α :=
  mergeBlocks before (sortedBlocks before xs)

end BarrelAsm.Order
