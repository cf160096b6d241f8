import BarrelAsm.Text.Basic

/-! Number literals: hexadecimal after `0x`, octal after `0`, else decimal with an optional sign. -/
namespace BarrelAsm.Numeral

/-- Digits and letters of either case stand for 0 to 35. -/
def digit? (b : UInt8) : Option Nat :=
  if Text.isDigit b then some (b.toNat - 48)
  else if 97 ≤ b ∧ b ≤ 122 then some (b.toNat - 87)
  else if 65 ≤ b ∧ b ≤ 90 then some (b.toNat - 55)
  else none

def pushDigit? (base n : Nat) (b : UInt8) : Option Nat :=
  match digit? b with
  | some d => if d < base then some (n * base + d) else none
  | none => none

def ofDigits? (base : Nat) (t : Text) : Option Nat :=
  if t.isEmpty then none else t.foldlM (pushDigit? base) 0

def value? : Text → Option Int
  | 48 :: 120 :: ds => (ofDigits? 16 ds).map Int.ofNat
  | 48 :: 88 :: ds => (ofDigits? 16 ds).map Int.ofNat
  | 48 :: d :: ds => (ofDigits? 8 (d :: ds)).map Int.ofNat
  | 43 :: ds => (ofDigits? 10 ds).map Int.ofNat
  | 45 :: ds => (ofDigits? 10 ds).map fun n => -Int.ofNat n
  | ds => (ofDigits? 10 ds).map Int.ofNat

/-- A literal of 32 bits, cut to its low 16. -/
def read? (t : Text) : Option UInt16 :=
  match value? t with
  | some v => if -0x80000000 ≤ v ∧ v < 0x80000000 then some (UInt16.ofInt v) else none
  | none => none

end BarrelAsm.Numeral
