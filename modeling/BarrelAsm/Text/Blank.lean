import BarrelAsm.Text.Basic

/-! White space of Unicode, on UTF-8 bytes.

No white space character is encoded by a part of another character's bytes, so stripping these
byte sequences from an end of a text is stripping its white space characters. -/
namespace BarrelAsm.Text

/-- The encodings of the white space characters. -/
def blanks : List Text :=
  [[0x20], [0x09], [0x0A], [0x0B], [0x0C], [0x0D], [0xC2, 0x85], [0xC2, 0xA0], [0xE1, 0x9A, 0x80],
    [0xE2, 0x80, 0x80], [0xE2, 0x80, 0x81], [0xE2, 0x80, 0x82], [0xE2, 0x80, 0x83],
    [0xE2, 0x80, 0x84], [0xE2, 0x80, 0x85], [0xE2, 0x80, 0x86], [0xE2, 0x80, 0x87],
    [0xE2, 0x80, 0x88], [0xE2, 0x80, 0x89], [0xE2, 0x80, 0x8A], [0xE2, 0x80, 0xA8],
    [0xE2, 0x80, 0xA9], [0xE2, 0x80, 0xAF], [0xE2, 0x81, 0x9F], [0xE3, 0x80, 0x80]]

/-- The number of bytes of the first of `bs` that the text starts with, 0 if there is none. -/
def leading (bs : List Text) (t : Text) : Nat :=
  ((bs.find? (·.isPrefixOf t)).map List.length).getD 0

theorem length_drop_leading_lt {bs : List Text} {t : Text} {n : Nat} (h : leading bs t = n + 1) :
    (t.drop (n + 1)).length < t.length := by
  unfold leading at h
  cases hf : bs.find? (·.isPrefixOf t) with
  | none => simp [hf] at h
  | some b =>
    have hp : b.isPrefixOf t = true := by simpa using List.find?_some hf
    have hl := (List.isPrefixOf_iff_prefix.mp hp).length_le
    simp only [hf, Option.map_some, Option.getD_some] at h
    rw [List.length_drop]
    omega

def strip (bs : List Text) (t : Text) : Text :=
  match h : leading bs t with
  | 0 => t
  | n + 1 => strip bs (t.drop (n + 1))
termination_by t.length
decreasing_by exact length_drop_leading_lt h

def trimLeft (t : Text) : Text := strip blanks t

def trimRight (t : Text) : Text := (strip (blanks.map List.reverse) t.reverse).reverse

def trim (t : Text) : Text := trimRight (trimLeft t)

end BarrelAsm.Text
