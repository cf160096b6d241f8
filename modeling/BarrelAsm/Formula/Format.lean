import BarrelAsm.Formula.Value
import BarrelAsm.Text.Quoted

/-! The text of values, and texts with values put in. -/
namespace BarrelAsm.Formula

/-! Floating point numbers. -/

/-- A positive number as decimal digits: the number that they form, how many there are, and the
power of ten of the first one. -/
structure Decimal where
  digits : Nat
  count : Nat
  exponent : Int
deriving DecidableEq, Repr

def tenTo (p : Int) : Nat × Nat := (Nat.pow 10 p.toNat, Nat.pow 10 (-p).toNat)

def scaled (a b : Nat) (p : Int) : Nat × Nat :=
  let (n, d) := tenTo p
  (a * d, b * n)

/-- The power of ten of the first digit of `a / b`, which is greater than `10 ^ (-400)`. -/
def leadingPower (a b : Nat) : Int := (Nat.toDigits 10 (a * Nat.pow 10 400 / b)).length - 401

/-- The nearest integer to `a / b`; a half goes to the even neighbour. -/
def nearest (a b : Nat) : Nat :=
  let q := a / b
  let r := a % b * 2
  if r < b ∨ (r = b ∧ q % 2 = 0) then q else q + 1

def Decimal.rounded (a b count : Nat) : Decimal :=
  let p := leadingPower a b
  let (n, d) := scaled a b (p + 1 - count)
  let c := nearest n d
  if c = Nat.pow 10 count then ⟨Nat.pow 10 (count - 1), count, p + 1⟩ else ⟨c, count, p⟩

/-- The digits of a number `m * 2 ^ e` in `count` places that are read as that number, if there are
any: of two such neighbours the nearer. -/
def Decimal.within? (m : Nat) (e : Int) (count : Nat) : Option Decimal :=
  let a := m * Nat.pow 2 e.toNat
  let b := Nat.pow 2 (-e).toNat
  let p := leadingPower a b
  let (n, d) := scaled a b (p + 1 - count)
  let below := if m = Nat.pow 2 52 ∧ -1074 < e then 4 * m - 1 else 4 * m - 2
  let above := 4 * m + 2
  let reads (c : Nat) : Bool :=
    let x := c * d * 4 * m
    if m % 2 = 0 then n * below ≤ x && x ≤ n * above else n * below < x && x < n * above
  let near := nearest n d
  let other := if near = n / d then near + 1 else near - 1
  let found := if reads near then some near else if reads other then some other else none
  found.map fun c =>
    if c = Nat.pow 10 count then ⟨Nat.pow 10 (count - 1), count, p + 1⟩ else ⟨c, count, p⟩

def Decimal.shortest (m : Nat) (e : Int) : Decimal :=
  ((List.range 17).findSome? fun i => Decimal.within? m e (i + 1)).getD
    (Decimal.rounded (m * Nat.pow 2 e.toNat) (Nat.pow 2 (-e).toNat) 17)

def Decimal.scientific (mark : UInt8) (x : Decimal) : Text :=
  let ds := Text.padLeft 48 x.count (Text.ofNat x.digits)
  let rest := ds.drop 1
  let point : Text := if rest.isEmpty then [] else 46 :: rest
  let power := Text.padLeft 48 2 (Text.ofNat x.exponent.natAbs)
  ds.take 1 ++ point ++ mark :: (if x.exponent < 0 then 45 else 43) :: power

def Decimal.positional (x : Decimal) : Text :=
  let ds := Text.padLeft 48 x.count (Text.ofNat x.digits)
  if x.exponent < 0 then
    ("0." : Text) ++ List.replicate (-x.exponent - 1).toNat 48 ++ ds
  else
    let whole := x.exponent.toNat + 1
    let rest := ds.drop whole
    Text.padRight 48 whole (ds.take whole) ++ 46 :: if rest.isEmpty then [48] else rest

/-- The shortest text of a floating point number: positional from `0.0001` up to six places. -/
def shortestFloat (mark : UInt8) (m : Nat) (e : Int) : Text :=
  let x := Decimal.shortest m e
  if x.exponent < -4 ∨ 6 ≤ x.exponent then x.scientific mark else x.positional

def fixedFloat (m : Nat) (e : Int) : Text :=
  let n := nearest (m * Nat.pow 2 e.toNat * 1000000) (Nat.pow 2 (-e).toNat)
  Text.ofNat (n / 1000000) ++ 46 :: Text.padLeft 48 6 (Text.ofNat (n % 1000000))

/-- A floating point number under a conversion: `e` and `f` with six places, `g` the shortest. -/
def formatFloat (conversion : UInt8) (f : Float) : Text :=
  match floatParts? f with
  | none => if f.isNaN then "nan" else if f > 0 then "+inf" else "-inf"
  | some (m, e) =>
    let sign : Text := if f.toBits.toNat / Nat.pow 2 63 = 0 then [] else [45]
    let n := m.natAbs
    let mark : UInt8 := if conversion = 69 ∨ conversion = 71 then 69 else 101
    sign ++
      if conversion = 101 ∨ conversion = 69 then
        if n = 0 then Decimal.scientific mark ⟨0, 7, 0⟩
        else (Decimal.rounded (n * Nat.pow 2 e.toNat) (Nat.pow 2 (-e).toNat) 7).scientific mark
      else if conversion = 102 then fixedFloat n e
      else if conversion = 70 then "%F"
      else if n = 0 then "0.0"
      else shortestFloat mark n e

/-! All values. -/

mutual

def Value.text : Value → Text
  | .nothing => "None"
  | .bool b => if b then "True" else "False"
  | .int i => Text.ofInt i
  | .float f => formatFloat 103 f
  | .string t => Text.doubleQuoted t
  | .tuple vs =>
    40 :: Text.join ", " (Value.texts vs) ++ if vs.length = 1 then (",)" : Text) else [41]
  | .list vs => 91 :: Text.join ", " (Value.texts vs) ++ [93]
  | .dict ks vs =>
    123 :: Text.join ", " ((Value.texts ks).zipWith (fun k v => k ++ (": " : Text) ++ v)
      (Value.texts vs)) ++ [125]
  | .builtin n => ("<built-in function " : Text) ++ n ++ (">" : Text)

def Value.texts : List Value → List Text
  | [] => []
  | v :: vs => v.text :: Value.texts vs

end

/-! Putting values into a text. -/

def basedInt (base : Nat) (i : Int) : Text :=
  let ds := (Nat.toDigits base i.natAbs).map Char.toUInt8
  if i < 0 then 45 :: ds else ds

def upperCase (t : Text) : Text := t.map fun b => if 97 ≤ b && b ≤ 122 then b - 32 else b

def Value.toInt? : Value → Option Int
  | .int i => some i
  | .float f => truncate? f
  | _ => none

def characterText (c : Nat) : Text :=
  Text.ofCodePoint (if 0xD800 ≤ c ∧ c < 0xE000 then 0xFFFD else c)

def convert? (conversion : UInt8) (v : Value) : Option Text :=
  match conversion, v with
  | 115, .string t => some t
  | 115, v | 114, v => some v.text
  | 100, v | 105, v => v.toInt?.map Text.ofInt
  | 111, v => v.toInt?.map (basedInt 8)
  | 120, v => v.toInt?.map (basedInt 16)
  | 88, v => v.toInt?.map fun i => upperCase (basedInt 16 i)
  | 99, .int i => if 0 ≤ i ∧ i ≤ 0x10FFFF then some (characterText i.toNat) else none
  | 99, .string t =>
    let (c, w) := Text.firstChar t
    if t.isEmpty ∨ w ≠ t.length then none else some (Text.ofCodePoint c)
  | 37, _ => some [37]
  | c, .float f => if isFloat c then some (formatFloat c f) else none
  | c, .int i => if isFloat c then some (formatFloat c (Float.ofInt i)) else none
  | _, _ => none
where
  isFloat (c : UInt8) : Bool := [101, 102, 103, 69, 70, 71].contains c

/-- The value for a conversion behind its percent sign, and what follows: the named entry of a
dictionary, or the next one of the values. -/
def conversionValue? (x : Value) (values : List Value) (used : Nat) (t : Text) :
    Option (Value × Text) :=
  match t with
  | 40 :: rest => do
    let behind ← Text.after? 41 rest
    match x with
    | .dict ks vs =>
      let v ← lookup? (compare? .eq) (.string (Text.before 41 rest)) ks vs
      return (v, behind)
    | _ => none
  | t => values[used]?.map fun v => (v, t)

/-- Put values in the places of the conversions of a text. All of them have to be used, unless they
are the entries of a dictionary. -/
def interpolate? (format : Text) (x : Value) : Option Text :=
  let values :=
    match x with
    | .tuple vs => vs
    | v => [v]
  let complete (used : Nat) : Bool :=
    match x with
    | .dict _ _ => true
    | _ => values.length ≤ used
  go values complete format.length 0 format
where
  go (values : List Value) (complete : Nat → Bool) :
      Nat → Nat → Text → Option Text
  | 0, used, t => if complete used then some t else none
  | fuel + 1, used, t =>
    let plain := Text.before 37 t
    match Text.after? 37 t with
    | none => if complete used then some t else none
    | some (37 :: rest) => (go values complete fuel used rest).map (plain ++ 37 :: ·)
    | some rest => do
      let (v, behind) ← conversionValue? x values used rest
      match behind with
      | [] => none
      | c :: behind =>
        let shown ← convert? c v
        return plain ++ shown ++ (← go values complete fuel (used + 1) behind)

end BarrelAsm.Formula
