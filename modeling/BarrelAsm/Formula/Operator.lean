import BarrelAsm.Formula.Format

/-! The operators of formulas. `none` is an operation that fails. -/
namespace BarrelAsm.Formula

/-- The remainder with the sign of the divisor. -/
def floatMod (x y : Float) : Float :=
  let z :=
    match floatParts? x, floatParts? y with
    | some (a, d), some (b, e) =>
      let low := min d e
      let r := (a * Int.pow 2 (d - low).toNat).tmod (b * Int.pow 2 (e - low).toNat)
      (Float.ofInt r).scaleB low
    | some _, none => if y.isNaN then y else x
    | none, _ => x - x
  if (x < 0) ≠ (y < 0) ∧ z != 0 then z + y else z

def repeatLimit : Nat := 0x40000000

/-- Repeat what is not empty; the count is a 32-bit integer. -/
def repeat? {α : Type} (xs : List α) (n : Int) : Option (List α) :=
  if xs.isEmpty then some []
  else if n < -0x80000000 ∨ 0x80000000 ≤ n ∨ repeatLimit ≤ xs.length * n.toNat then none
  else some (List.replicate n.toNat xs).flatten

/-- Shift counts are 32-bit integers; a shift to the left is by less than 512. -/
def shift? (left : Bool) (i n : Int) : Option Value :=
  if n < 0 ∨ 0x80000000 ≤ n then none
  else if left then if n < 512 then some (.int (i * Int.pow 2 n.toNat)) else none
  else some (.int (i >>> n.toNat))

def bitwise (op : Bool → Bool → Bool) (x y : Int) : Int :=
  let bits := (max x.natAbs y.natAbs).log2 + 2
  let a := (x % Int.pow 2 bits).toNat
  let b := (y % Int.pow 2 bits).toNat
  Int.bmod (Nat.bitwise op a b) (Nat.pow 2 bits)

def floatArith? (op : ArithOp) (x y : Float) : Option Value :=
  match op with
  | .add => some (.float (x + y))
  | .sub => some (.float (x - y))
  | .mul => some (.float (x * y))
  | .div => if y == 0 then none else some (.float (x / y))
  | .floorDiv => if y == 0 then none else some (.float (x / y).floor)
  | .mod => if y == 0 then none else some (.float (floatMod x y))
  | _ => none

def intArith? (op : ArithOp) (x y : Int) : Option Value :=
  match op with
  | .add => some (.int (x + y))
  | .sub => some (.int (x - y))
  | .mul => some (.int (x * y))
  | .div => do floatArith? .div (← floatOf? x) (← floatOf? y)
  | .floorDiv => if y = 0 then none else some (.int (x.fdiv y))
  | .mod => if y = 0 then none else some (.int (x.fmod y))
  | .or => some (.int (bitwise (· || ·) x y))
  | .xor => some (.int (bitwise (· != ·) x y))
  | .and => some (.int (bitwise (· && ·) x y))
  | .shiftLeft => shift? true x y
  | .shiftRight => shift? false x y

def arith? (op : ArithOp) (x y : Value) : Option Value :=
  match op, x, y with
  | op, .int a, .int b => intArith? op a b
  | op, .float a, .float b => floatArith? op a b
  | op, .int a, .float b => do floatArith? op (← floatOf? a) b
  | op, .float a, .int b => do floatArith? op a (← floatOf? b)
  | .add, .string a, .string b => some (.string (a ++ b))
  | .add, .tuple a, .tuple b => some (.tuple (a ++ b))
  | .add, .list a, .list b => some (.list (a ++ b))
  | .mul, .string a, .int n | .mul, .int n, .string a => (repeat? a n).map .string
  | .mul, .tuple a, .int n | .mul, .int n, .tuple a => (repeat? a n).map .tuple
  | .mul, .list a, .int n | .mul, .int n, .list a => (repeat? a n).map .list
  | .or, .dict ks vs, .dict ls ws => some (let (ks, vs) := union ks vs ls ws; .dict ks vs)
  | .mod, .string format, x => (interpolate? format x).map .string
  | _, _, _ => none

def unary? (op : UnaryOp) (x : Value) : Option Value :=
  match op, x with
  | .plus, .int i => some (.int i)
  | .plus, .float f => some (.float f)
  | .minus, .int i => some (.int (-i))
  | .minus, .float f => some (.float (-f))
  | .complement, .int i => some (.int (-i - 1))
  | _, _ => none

end BarrelAsm.Formula
