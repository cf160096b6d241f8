/-! Byte strings, the texts that the assembler reads and writes: their bytes, numbers and lines. -/
namespace BarrelAsm

/-- A text is a list of bytes; nothing requires it to be valid UTF-8. -/
abbrev Text := List UInt8

namespace Text

def ofString (s : String) : Text := s.toByteArray.data.toList

instance : Coe String Text := ⟨ofString⟩

/-- The part before the first `sep`, or the whole text if there is none. -/
def before (sep : UInt8) (t : Text) : Text := t.takeWhile (· != sep)

/-- The part after the first `sep`, if there is one. -/
def after? (sep : UInt8) (t : Text) : Option Text := (t.dropWhile (· != sep)).tail?

def padRight (fill : UInt8) (width : Nat) (t : Text) : Text :=
  t ++ List.replicate (width - t.length) fill

def padLeft (fill : UInt8) (width : Nat) (t : Text) : Text :=
  List.replicate (width - t.length) fill ++ t

def join (sep : Text) (ts : List Text) : Text := (ts.intersperse sep).flatten

def quote (t : Text) : Text := 39 :: (t ++ [39])

/-! Classes of ASCII bytes. -/

def isDigit (b : UInt8) : Bool := 48 ≤ b && b ≤ 57

def isHexDigit (b : UInt8) : Bool := isDigit b || (97 ≤ b && b ≤ 102) || (65 ≤ b && b ≤ 70)

def isNameStart (b : UInt8) : Bool := b == 95 || (97 ≤ b && b ≤ 122) || (65 ≤ b && b ≤ 90)

def isWordByte (b : UInt8) : Bool := isNameStart b || isDigit b

def isName : Text → Bool
  | [] => false
  | b :: bs => isNameStart b && bs.all isWordByte

/-! Numbers. -/

/-- At least `width` lower case hexadecimal digits, zeros in front. -/
def hexNat (width n : Nat) : Text := padLeft 48 width ((Nat.toDigits 16 n).map Char.toUInt8)

/-- The sign of a negative number counts towards the width: `-001`. -/
def hexInt (width : Nat) (i : Int) : Text :=
  if i < 0 then 45 :: hexNat (width - 1) i.natAbs else hexNat width i.natAbs

def hex16 (i : Int) : Text := hexNat 4 (i % 0x10000).toNat

def ofNat (n : Nat) : Text := (Nat.toDigits 10 n).map Char.toUInt8

def ofInt (i : Int) : Text := if i < 0 then 45 :: ofNat i.natAbs else ofNat i.natAbs

/-- Put a comma after every third byte that is not the last. -/
def groupThrees : Text → Text
  | a :: b :: c :: rest => if rest.isEmpty then [a, b, c] else a :: b :: c :: 44 :: groupThrees rest
  | t => t

def groupedNat (n : Nat) : Text := (groupThrees (ofNat n).reverse).reverse

def groupedInt (i : Int) : Text := if i < 0 then 45 :: groupedNat i.natAbs else groupedNat i.natAbs

/-! Lines. -/

theorem length_tail_dropWhile_lt (p : UInt8 → Bool) (b : UInt8) (bs : Text) :
    (((b :: bs).dropWhile p).tail).length < (b :: bs).length := by
  have h := ((b :: bs).dropWhile_sublist p).length_le
  simp only [List.length_tail, List.length_cons] at h ⊢
  omega

/-- Split after every line feed; what follows the last one is a line if it is not empty. -/
def splitLines (t : Text) : List Text :=
  match t with
  | [] => []
  | b :: bs => before 10 (b :: bs) :: splitLines ((b :: bs).dropWhile (· != 10)).tail
termination_by t.length
decreasing_by exact length_tail_dropWhile_lt _ b bs

def dropReturn (t : Text) : Text := if t.getLast? = some 13 then t.dropLast else t

/-- Lines have fewer bytes than this, a carriage return counted and the line feed not. -/
def lineLimit : Nat := 65536

/-- The lines of a text, or `none` if one of them is too long. -/
def lines? (t : Text) : Option (List Text) :=
  let ls := splitLines t
  if ls.all (·.length < lineLimit) then some (ls.map dropReturn) else none

end Text
end BarrelAsm
