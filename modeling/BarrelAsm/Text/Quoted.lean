import BarrelAsm.Text.Letter
import BarrelAsm.Text.Visible

/-! Quoted texts: what cannot be seen is written as an escape. -/
namespace BarrelAsm.Text

def escapeChar (quote : UInt8) (c : Nat) : Text :=
  if c = quote.toNat ∨ c = 92 then [92, UInt8.ofNat c]
  else if isVisible c then ofCodePoint c
  else
    match c with
    | 7 => "\\a"
    | 8 => "\\b"
    | 9 => "\\t"
    | 10 => "\\n"
    | 11 => "\\v"
    | 12 => "\\f"
    | 13 => "\\r"
    | c =>
      if c < 128 then ("\\x" : Text) ++ hexNat 2 c
      else if c < 0x10000 then ("\\u" : Text) ++ hexNat 4 c
      else ("\\U" : Text) ++ hexNat 8 c

/-- The characters of a text between double quotes; stray bytes are written as numbers. -/
def escapeAll (t : Text) : Text :=
  match t with
  | [] => []
  | b :: bs =>
    match firstChar (b :: bs) with
    | (0xFFFD, 1) => ("\\x" : Text) ++ hexNat 2 b.toNat ++ escapeAll bs
    | (c, w) => escapeChar 34 c ++ escapeAll (bs.drop (w - 1))
termination_by t.length
decreasing_by
  · simp
  · simp only [List.length_drop, List.length_cons]; omega

def doubleQuoted (t : Text) : Text := 34 :: (escapeAll t ++ [34])

def quotedByte (b : UInt8) : Text := 39 :: (escapeChar 39 b.toNat ++ [39])

end BarrelAsm.Text
