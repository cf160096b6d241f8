import BarrelAsm.Formula.Expr

/-! Values of formulas, their truth and their comparison. `none` is an operation that fails. -/
namespace BarrelAsm.Formula

inductive Value where
  | nothing
  | bool (b : Bool)
  | int (i : Int)
  | float (f : Float)
  | string (t : Text)
  | tuple (items : List Value)
  | list (items : List Value)
  /-- Keys and their values, in the order in which they were set. -/
  | dict (keys values : List Value)
  | builtin (name : Text)

/-! Floating point numbers. -/

def floatParts? (f : Float) : Option (Int × Int) :=
  let bits : Nat := f.toBits.toNat
  let e : Nat := bits / Nat.pow 2 52 % 2048
  let m : Nat := bits % Nat.pow 2 52
  let sign : Int := if bits / Nat.pow 2 63 = 0 then 1 else -1
  if e = 2047 then none
  else if e = 0 then some (sign * m, -1074)
  else some (sign * (m + Nat.pow 2 52 : Nat), (e : Int) - 1075)

def truncate? (f : Float) : Option Int :=
  match floatParts? f with
  | none => none
  | some (m, e) => some (if 0 ≤ e then m * Int.pow 2 e.toNat else m.tdiv (Int.pow 2 (-e).toNat))

def floatOf? (i : Int) : Option Float :=
  let f := Float.ofInt i
  if f.isInf then none else some f

/-- The order of floating point numbers; what is not a number comes last and equals itself. -/
def floatOrder (x y : Float) : Ordering :=
  if x < y then .lt
  else if y < x then .gt
  else if x == y then .eq
  else compare x.isNaN y.isNaN

def exactOrder (i : Int) (f : Float) : Ordering :=
  match floatParts? f with
  | none => if f < 0 then .gt else .lt
  | some (m, e) =>
    if 0 ≤ e then compare i (m * Int.pow 2 e.toNat) else compare (i * Int.pow 2 (-e).toNat) m

/-! Truth. -/

/-- Zero, what is empty and nothing are false. -/
def Value.truth : Value → Bool
  | .nothing => false
  | .bool b => b
  | .int i => i != 0
  | .float f => f != 0
  | .string t => !t.isEmpty
  | .tuple vs => !vs.isEmpty
  | .list vs => !vs.isEmpty
  | .dict ks _ => !ks.isEmpty
  | .builtin _ => true

/-- The items of a value that holds some; those of a dictionary are its keys. -/
def Value.items? : Value → Option (List Value)
  | .tuple vs => some vs
  | .list vs => some vs
  | .dict ks _ => some ks
  | _ => none

/-! Comparison. -/

def CompareOp.holds : CompareOp → Ordering → Bool
  | .eq, o => o == .eq
  | .ne, o => o != .eq
  | .lt, o => o == .lt
  | .gt, o => o == .gt
  | .le, o => o != .gt
  | .ge, o => o != .lt

def textOrder (a b : Text) : Ordering := if a < b then .lt else if a = b then .eq else .gt

def Value.order? : Value → Value → Option Ordering
  | .bool a, .bool b => some (compare a b)
  | .int a, .int b => some (compare a b)
  | .float a, .float b => some (floatOrder a b)
  | .int a, .float b => some (exactOrder a b)
  | .float a, .int b => some (exactOrder b a).swap
  | .string a, .string b => some (textOrder a b)
  | _, _ => none

/-- Compare sequences at the first place where they differ, else by their lengths. -/
def compareItems? (compareItem? : CompareOp → Value → Value → Option Bool) (op : CompareOp) :
    List Value → List Value → Option Bool
  | x :: xs, y :: ys => do
    if ← compareItem? .eq x y then compareItems? compareItem? op xs ys
    else
      match op with
      | .eq => some false
      | .ne => some true
      | op => compareItem? op x y
  | xs, ys => some (op.holds (compare xs.length ys.length))

/-- Sequences of different lengths are unequal whatever they hold. -/
def compareSequences? (compareItem? : CompareOp → Value → Value → Option Bool) (op : CompareOp)
    (xs ys : List Value) : Option Bool :=
  if (op = .eq ∨ op = .ne) ∧ xs.length ≠ ys.length then some (op = .ne)
  else compareItems? compareItem? op xs ys

/-- Values of different kinds, or without an order, can still be equal or not. -/
def CompareOp.identity? (op : CompareOp) (same : Bool) : Option Bool :=
  match op with
  | .eq => some same
  | .ne => some !same
  | _ => none

def lookup? (equals : Value → Value → Option Bool) (key : Value) :
    List Value → List Value → Option Value
  | k :: ks, v :: vs => if equals k key = some true then some v else lookup? equals key ks vs
  | _, _ => none

def equalEntries? (equals : Value → Value → Option Bool) (keys values : List Value) :
    List Value → List Value → Option Bool
  | k :: ks, v :: vs =>
    match lookup? equals k keys values with
    | none => some false
    | some w => do if ← equals v w then equalEntries? equals keys values ks vs else some false
  | _, _ => some true

/-- Compare values that are nested less than `depth` deep; deeper ones cannot be compared. -/
def Value.compareWithin? : Nat → CompareOp → Value → Value → Option Bool
  | 0, _, _, _ => none
  | depth + 1, op, x, y =>
    match x, y with
    | .nothing, .nothing => op.identity? true
    | .builtin a, .builtin b => op.identity? (a == b)
    | .tuple a, .tuple b => compareSequences? (Value.compareWithin? depth) op a b
    | .list a, .list b => compareSequences? (Value.compareWithin? depth) op a b
    | .dict ks vs, .dict ls ws =>
      if op = .eq ∨ op = .ne then
        if ks.length ≠ ls.length then op.identity? false
        else (equalEntries? (Value.compareWithin? depth .eq) ls ws ks vs).bind op.identity?
      else none
    | x, y =>
      match x.order? y with
      | some o => some (op.holds o)
      | none => op.identity? false

def comparisonDepth : Nat := 10

def compare? (op : CompareOp) (x y : Value) : Option Bool :=
  Value.compareWithin? comparisonDepth op x y

/-! Dictionaries. -/

mutual

def Value.isKey : Value → Bool
  | .list _ | .dict _ _ => false
  | .tuple vs => Value.areKeys vs
  | _ => true

def Value.areKeys : List Value → Bool
  | [] => true
  | v :: vs => v.isKey && Value.areKeys vs

end

/-- The dictionary of keys and values in turn; no key comes twice. -/
def dictOf? : List Value → Option (List Value × List Value)
  | k :: v :: rest => do
    let (ks, vs) ← dictOf? rest
    if k.isKey && ks.all fun l => compare? .eq l k = some false then some (k :: ks, v :: vs)
    else none
  | _ => some ([], [])

def setEntry (key value : Value) : List Value → List Value → List Value × List Value
  | k :: ks, v :: vs =>
    if compare? .eq k key = some true then (k :: ks, value :: vs)
    else
      let (ls, ws) := setEntry key value ks vs
      (k :: ls, v :: ws)
  | _, _ => ([key], [value])

def union (ks vs : List Value) : List Value → List Value → List Value × List Value
  | l :: ls, w :: ws =>
    let (ks, vs) := setEntry l w ks vs
    union ks vs ls ws
  | _, _ => (ks, vs)

end BarrelAsm.Formula
