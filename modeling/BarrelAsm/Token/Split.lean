import BarrelAsm.Text.Blank
import BarrelAsm.Token.Classify

/-! Splitting a source line into tokens. -/
namespace BarrelAsm.Token

def isSeparator (b : UInt8) : Bool := b == 44 || isOperator b || isBlank b

/-- The number of bytes up to the last `close` on this line, 0 if there is none. -/
def closingLength (close : UInt8) (t : Text) : Nat :=
  ((t.takeWhile (· != 10)).reverse.dropWhile (· != close)).length

def closer? (b : UInt8) : Option UInt8 :=
  if b == 91 then some 93 else if b == 34 || b == 39 then some b else none

/-- The length of a bracketed or quoted piece after its opening byte `b`. -/
def enclosedLength (b : UInt8) (bs : Text) : Nat :=
  match closer? b with
  | some c => closingLength c bs
  | none => 0

def hexTailLength : Text → Nat
  | [] => 0
  | b :: bs => if b == 120 || b == 88 then 1 + (bs.takeWhile Text.isHexDigit).length else 0

def signedLength : Text → Nat
  | [] => 0
  | b :: bs =>
    if b == 43 || b == 45 then
      1 + (bs.takeWhile Text.isDigit).length + hexTailLength (bs.dropWhile Text.isDigit)
    else 0

/-- The length of the piece that a text starts with. A blank starts a piece only when a sign
follows; else the length is 0. -/
def pieceLength : Text → Nat
  | [] => 0
  | b :: bs =>
    match enclosedLength b bs with
    | n + 1 => n + 2
    | 0 =>
      -- A bracket or quote that nothing closes starts a run like any other byte.
      if !isSeparator b then 1 + (bs.takeWhile (!isSeparator ·)).length
      else if !isBlank b then 1
      else
        match signedLength bs with
        | n + 1 => n + 2
        | 0 => 0

def pieces (t : Text) : List Text :=
  match t with
  | [] => []
  | b :: bs =>
    match pieceLength (b :: bs) with
    | 0 => pieces bs
    | n + 1 => (b :: bs.take n) :: pieces (bs.drop n)
termination_by t.length
decreasing_by
  · simp
  · simp only [List.length_drop, List.length_cons]; omega

def trimmedPieces (line : Text) : List Text :=
  ((pieces line).map Text.trim).filter (!·.isEmpty)

def tokenize (line : Text) : List Token := (trimmedPieces line).map ofText

end BarrelAsm.Token
