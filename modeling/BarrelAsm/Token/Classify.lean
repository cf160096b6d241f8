import BarrelAsm.Numeral
import BarrelAsm.Pseudo
import BarrelAsm.Token.Basic

/-! The kind of a piece of source text. -/
namespace BarrelAsm.Token

/-- The blanks that separate tokens: tab, line feed, form feed, carriage return and space. -/
def isBlank (b : UInt8) : Bool := b == 32 || b == 9 || b == 10 || b == 12 || b == 13

def labelName? (t : Text) : Option Text :=
  let w := t.takeWhile Text.isWordByte
  if !w.isEmpty && (t.dropWhile Text.isWordByte).dropWhile isBlank == [58] then some w else none

def untilQuote? (quote : UInt8) (t : Text) : Option Text :=
  if (t.dropWhile fun b => b != quote && b != 10).head? = some quote then
    some (t.takeWhile fun b => b != quote && b != 10)
  else none

/-- The contents of the first pair of equal quotes on one line. -/
def quoted? : Text → Option Text
  | [] => none
  | b :: bs =>
    if b == 34 || b == 39 then (untilQuote? b bs).or (quoted? bs) else quoted? bs

/-- What stands between the first opening bracket and the last closing one. -/
def bracketed? (t : Text) : Option Text :=
  match ((t.dropWhile (· != 91)).drop 1).reverse.dropWhile (· != 93) with
  | [] => none
  | _ :: r => some r.reverse

/-- The first word that stands alone in parentheses; it may be empty. -/
def parenthesised? : Text → Option Text
  | [] => none
  | b :: bs =>
    if b == 40 && (bs.dropWhile Text.isWordByte).head? = some 41 then
      some (bs.takeWhile Text.isWordByte)
    else parenthesised? bs

def keyword? (t : Text) : Option TokenKind :=
  if t = (".reg" : Text) then some .regDecl
  else if t = (".const" : Text) then some .constDecl
  else if t = (".data" : Text) then some .dataDecl
  else if t = ("process" : Text) then some .process
  else if t = ("endprocess" : Text) then some .endProcess
  else none

def isOperator (b : UInt8) : Bool := b == 42 || b == 43 || b == 45 || b == 47

def ofPlain (t : Text) : Token :=
  if Text.isName t then ⟨.identifier, t, 0⟩
  else if t = [44] then ⟨.comma, t, 0⟩
  else if t.length = 1 ∧ t.all isOperator then ⟨.operator, t, 0⟩
  else ⟨.unknown, t, 0⟩

/-- Texts that hold a string, a size or an indirection, in this order of preference. -/
def ofDelimited (t : Text) : Token :=
  match quoted? t with
  | some s => ⟨.string, s, s.length⟩
  | none =>
    match bracketed? t with
    | some s => ⟨.size, s, 0⟩
    | none =>
      match parenthesised? t with
      | some s => ⟨.indirection, s, 0⟩
      | none => ofPlain t

def ofText (t : Text) : Token :=
  if (Mnemonic.ofName? t).isSome then ⟨.instruction, t, 0⟩
  else if (PseudoOp.ofName? t).isSome then ⟨.pseudo, t, 0⟩
  else
    match Numeral.read? t with
    | some v => ⟨.number, t, v.toNat⟩
    | none =>
      match keyword? t with
      | some k => ⟨k, t, 0⟩
      | none =>
        match labelName? t with
        | some w => ⟨.label, w, 0⟩
        | none => ofDelimited t

end BarrelAsm.Token
