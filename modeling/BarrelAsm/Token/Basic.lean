import BarrelAsm.Text.Basic

/-! Tokens of a source line. -/
namespace BarrelAsm

/-- What a token is; a kind that is none of these is known by its number only. -/
inductive TokenKind where
  | unknown
  | identifier
  | instruction
  | pseudo
  | number
  | regDecl
  | constDecl
  | dataDecl
  | process
  | endProcess
  | label
  | string
  | size
  | indirection
  | comma
  | operator
  | other (code : Int)
deriving DecidableEq, Repr

namespace TokenKind

def ofCode : Int → TokenKind
  | 0 => unknown
  | 1 => identifier
  | 2 => instruction
  | 3 => pseudo
  | 4 => number
  | 5 => regDecl
  | 6 => constDecl
  | 7 => dataDecl
  | 8 => process
  | 9 => endProcess
  | 10 => label
  | 11 => string
  | 12 => size
  | 13 => indirection
  | 14 => comma
  | 15 => operator
  | code => other code

def name : TokenKind → Text
  | unknown => "none"
  | identifier => "identifier"
  | instruction => "instruction"
  | pseudo => "macro"
  | number => "number"
  | regDecl => ".reg"
  | constDecl => ".const"
  | dataDecl => ".data"
  | process => "process"
  | endProcess => "endprocess"
  | label => "label"
  | string => "string"
  | size => "size"
  | indirection => "indirection"
  | comma => "comma"
  | operator => "operator"
  | other code => ("TokenKind(" : Text) ++ Text.ofInt code ++ (")" : Text)

end TokenKind

/-- A token holds its meaningful text: a label without its colon, what stands inside quotes,
brackets or parentheses. Its value is that of a number or the length of a string. -/
structure Token where
  kind : TokenKind
  text : Text
  value : Int
deriving DecidableEq, Repr

end BarrelAsm
