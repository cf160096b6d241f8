import BarrelAsm.Numeral
import BarrelAsm.Text.Letter

/-! Lexemes of formulas. -/
namespace BarrelAsm.Formula

inductive Lexeme where
  | name (text : Text)
  | int (value : Nat)
  | float (value : Float)
  | string (text : Text)
  | mark (text : Text)
  | newline

def keywords : List Text := List.map Text.ofString
  ["and", "break", "continue", "def", "elif", "else", "for", "if", "in", "lambda", "load", "not",
    "or", "pass", "return", "while", "as", "async", "await", "class", "del", "except", "finally",
    "from", "global", "import", "is", "nonlocal", "raise", "try", "with", "yield"]

/-- Punctuation, longer marks before the marks that they start with. -/
def punctuation : List Text := List.map Text.ofString
  ["<<=", ">>=", "//=", "<=", ">=", "==", "!=", "+=", "-=", "%=", "/=", "&=", "|=", "^=", "*=",
    "<<", ">>", "//", "**", "=", "<", ">", "+", "-", "%", "/", "&", "|", "^", ":", ";", "~", "*",
    "(", ")", "[", "]", "\x7b", "\x7d", ",", "."]

/-! Numbers. -/

def decimal? (mantissa : Nat) (exponent : Int) : Option Float :=
  let digits := (Nat.toDigits 10 mantissa).length
  if mantissa = 0 ∨ exponent + digits < -400 then some 0
  else if exponent + digits > 400 then none
  else
    let f := Float.ofScientific mantissa (exponent < 0) exponent.natAbs
    if f.isInf then none else some f

/-- The digits of an exponent, sign included, and its length; an exponent has to have digits. -/
def exponent? (t : Text) : Option (Int × Nat) :=
  let signed := t.head? = some 43 ∨ t.head? = some 45
  let ds := (if signed then t.drop 1 else t).takeWhile Text.isDigit
  match Numeral.ofDigits? 10 ds with
  | none => none
  | some n =>
    some (if t.head? = some 45 then -n else n, ds.length + if signed then 1 else 0)

def float? (whole rest : Text) : Option (Lexeme × Nat) :=
  let fraction := if rest.head? = some 46 then (rest.drop 1).takeWhile Text.isDigit else []
  let fractionLength := if rest.head? = some 46 then fraction.length + 1 else 0
  let tail := rest.drop fractionLength
  let mantissa := (Numeral.ofDigits? 10 (whole ++ fraction)).getD 0
  let length := whole.length + fractionLength
  if tail.head? = some 101 ∨ tail.head? = some 69 then
    match exponent? (tail.drop 1) with
    | none => none
    | some (e, n) =>
      (decimal? mantissa (e - fraction.length)).map fun f => (.float f, length + 1 + n)
  else (decimal? mantissa (-fraction.length)).map fun f => (.float f, length)

def based? (base : Nat) (isBaseDigit : UInt8 → Bool) (limit : Option Nat) (t : Text) :
    Option (Lexeme × Nat) :=
  let ds := t.takeWhile isBaseDigit
  match Numeral.ofDigits? base ds with
  | none => none
  | some n =>
    if limit.any (· ≤ n) then none else some (.int n, ds.length + 2)

/-- Whole decimal digits; a leading zero is only for zero itself. -/
def whole? (ds : Text) : Option Lexeme :=
  if ds.head? = some 48 ∧ ds.any (· != 48) then none
  else (Numeral.ofDigits? 10 ds).map .int

def number? (t : Text) : Option (Lexeme × Nat) :=
  let isOctal (b : UInt8) : Bool := 48 ≤ b && b ≤ 55
  let isBinary (b : UInt8) : Bool := b == 48 || b == 49
  match t with
  | 48 :: 120 :: ds | 48 :: 88 :: ds => based? 16 Text.isHexDigit none ds
  | 48 :: 111 :: ds | 48 :: 79 :: ds => based? 8 isOctal (some (Nat.pow 2 63)) ds
  | 48 :: 98 :: ds | 48 :: 66 :: ds => based? 2 isBinary (some (Nat.pow 2 63)) ds
  | t =>
    let ds := t.takeWhile Text.isDigit
    let rest := t.drop ds.length
    if rest.head? = some 46 ∨ rest.head? = some 101 ∨ rest.head? = some 69 then float? ds rest
    else (whole? ds).map fun l => (l, ds.length)

/-! Strings. -/

/-- A line end: its width, and 0 if the text starts with none. -/
def lineEnd : Text → Nat
  | 13 :: 10 :: _ => 2
  | 13 :: _ => 1
  | 10 :: _ => 1
  | _ => 0

/-- The bytes of a character; bytes that start no character become the replacement character. -/
def charBytes (t : Text) : Text × Nat :=
  let (c, w) := Text.firstChar t
  (Text.ofCodePoint c, w)

def hexDigits? (n : Nat) (t : Text) : Option Nat :=
  if (t.take n).length = n then Numeral.ofDigits? 16 (t.take n) else none

def escape? : Text → Option (Text × Nat)
  | [] => none
  | b :: bs =>
    if b == 97 then some ([7], 1)
    else if b == 98 then some ([8], 1)
    else if b == 102 then some ([12], 1)
    else if b == 110 then some ([10], 1)
    else if b == 114 then some ([13], 1)
    else if b == 116 then some ([9], 1)
    else if b == 118 then some ([11], 1)
    else if b == 92 || b == 39 || b == 34 then some ([b], 1)
    else if 48 ≤ b && b ≤ 55 then
      let ds := ((b :: bs).take 3).takeWhile fun b => 48 ≤ b && b ≤ 55
      match Numeral.ofDigits? 8 ds with
      | some n => if n < 128 then some ([UInt8.ofNat n], ds.length) else none
      | none => none
    else if b == 120 then
      match hexDigits? 2 bs with
      | some n => if n < 128 then some ([UInt8.ofNat n], 3) else none
      | none => none
    else if b == 117 then codePoint? 4 bs
    else if b == 85 then codePoint? 8 bs
    else if lineEnd (b :: bs) > 0 then some ([], lineEnd (b :: bs))
    else none
where
  codePoint? (n : Nat) (t : Text) : Option (Text × Nat) :=
    match hexDigits? n t with
    | some c =>
      if c ≤ 0x10FFFF ∧ ¬(0xD800 ≤ c ∧ c < 0xE000) then some (Text.ofCodePoint c, n + 1) else none
    | none => none

structure StringStyle where
  close : Text
  raw : Bool
  multiline : Bool

/-- The contents of a string up to its closing quotes, and the length with those. -/
def stringBody? (style : StringStyle) (t : Text) : Option (Text × Nat) :=
  match t with
  | [] => none
  | b :: bs =>
    if style.close.isPrefixOf (b :: bs) then some ([], style.close.length)
    else if b == 92 then
      let found :=
        if style.raw then
          let (c, w) := if lineEnd bs > 0 then ([10], lineEnd bs) else charBytes bs
          if w = 0 then none else some (b :: c, w)
        else escape? bs
      match found with
      | none => none
      | some (x, w) =>
        match stringBody? style (bs.drop w) with
        | none => none
        | some (y, n) => some (x ++ y, n + w + 1)
    else if lineEnd (b :: bs) > 0 then
      if style.multiline then
        match stringBody? style (bs.drop (lineEnd (b :: bs) - 1)) with
        | none => none
        | some (y, n) => some (10 :: y, n + lineEnd (b :: bs))
      else none
    else
      let (c, w) := charBytes (b :: bs)
      match stringBody? style (bs.drop (w - 1)) with
      | none => none
      | some (y, n) => some (c ++ y, n + w)
termination_by t.length
decreasing_by all_goals simp only [List.length_drop, List.length_cons]; omega

def string? (raw : Bool) (t : Text) : Option (Lexeme × Nat) :=
  match t with
  | [] => none
  | q :: rest =>
    let triple := [q, q].isPrefixOf rest
    let opening := if triple then 3 else 1
    let style : StringStyle := ⟨List.replicate opening q, raw, triple⟩
    (stringBody? style (t.drop opening)).map fun (s, n) => (.string s, n + opening)

/-! Names and all lexemes. -/

def nameCharWidth (first : Bool) (t : Text) : Nat :=
  let (c, w) := Text.firstChar t
  if c < 0x80 then
    if Text.isNameStart (UInt8.ofNat c) || (!first && Text.isDigit (UInt8.ofNat c)) then w else 0
  else if Text.isWideLetter c then w else 0

def nameLength (first : Bool) (t : Text) : Nat :=
  match t with
  | [] => 0
  | b :: bs =>
    match nameCharWidth first (b :: bs) with
    | 0 => 0
    | w + 1 => w + 1 + nameLength false (bs.drop w)
termination_by t.length
decreasing_by simp only [List.length_drop, List.length_cons]; omega

def stringStart? (t : Text) : Option (Nat × Bool) :=
  let isQuote (b : Option UInt8) : Bool := b = some 34 || b = some 39
  match t with
  | [] => none
  | b :: bs =>
    if isQuote (some b) then some (0, false)
    else if (b == 114 || b == 98) && isQuote bs.head? then some (1, b == 114)
    else if b == 114 && bs.head? = some 98 && isQuote (bs.drop 1).head? then some (2, true)
    else none

def lexeme? (t : Text) : Option (Lexeme × Nat) :=
  match stringStart? t with
  | some (n, raw) => (string? raw (t.drop n)).map fun (l, w) => (l, w + n)
  | none =>
    match nameLength true t with
    | n + 1 =>
      let word := t.take (n + 1)
      some (if keywords.contains word then .mark word else .name word, n + 1)
    | 0 =>
      let digitAhead (t : Text) : Bool := (t.head?.map Text.isDigit).getD false
      if digitAhead t || (t.head? = some 46 && digitAhead (t.drop 1)) then number? t
      else (punctuation.find? (·.isPrefixOf t)).map fun p => (.mark p, p.length)

/-- How deep in brackets one is after a lexeme; `none` for a bracket that closes nothing. -/
def depthAfter (depth : Nat) : Lexeme → Option Nat
  | .mark t =>
    if t = ("(" : Text) ∨ t = ("[" : Text) ∨ t = ("\x7b" : Text) then some (depth + 1)
    else if t = (")" : Text) ∨ t = ("]" : Text) ∨ t = ("\x7d" : Text) then
      if depth = 0 then none else some (depth - 1)
    else some depth
  | _ => some depth

def isSpace (b : UInt8) : Bool := b == 32 || b == 9

def isLineEnd (b : UInt8) : Bool := b == 10 || b == 13

def isComment (b : UInt8) : Bool := !isLineEnd b && b != 0

/-- The lexemes of a text. Blank lines, comments, and line ends inside brackets are skipped; a
statement must not be indented. A zero byte ends the text. -/
def lexemes? (depth : Nat) (lineStart : Bool) (t : Text) : Option (List Lexeme) :=
  match t with
  | [] => some []
  | b :: bs =>
    if b == 0 then some []
    else if isSpace b then
      if lineStart && depth = 0 && !(startsBlank (bs.dropWhile isSpace)) then none
      else lexemes? depth lineStart bs
    else if b == 35 then lexemes? depth lineStart (bs.dropWhile isComment)
    else if isLineEnd b then
      let rest := bs.drop (lineEnd (b :: bs) - 1)
      if lineStart || depth > 0 then lexemes? depth true rest
      else (lexemes? depth true rest).map (.newline :: ·)
    else if b == 92 then
      match lineEnd bs with
      | 0 => none
      | n + 1 => lexemes? depth false (bs.drop (n + 1))
    else
      match lexeme? (b :: bs) with
      | none => none
      | some (l, n) =>
        match depthAfter depth l with
        | none => none
        | some d => (lexemes? d false (bs.drop (n - 1))).map (l :: ·)
termination_by t.length
decreasing_by
  all_goals first
    | simp only [List.length_drop, List.length_cons]; omega
    | (have h := (bs.dropWhile_sublist isComment).length_le
       simp only [List.length_cons]; omega)
where
  startsBlank : Text → Bool
    | [] => true
    | b :: _ => b == 0 || b == 35 || isLineEnd b

end BarrelAsm.Formula
