import BarrelAsm.Token.Basic

/-! What can be wrong with a statement or a program, and the wording of it. -/
namespace BarrelAsm

inductive Fault where
  | unrecognized (text : Text)
  /-- A token of the wrong kind, or the end of the line. -/
  | unexpected (expected : List TokenKind) (found : Option Token)
  | trailing (text : Text)
  | undeclared (name : Text)
  | duplicateSymbol (name : Text)
  | duplicateProcess (name : Text)
  | wrongKind (name : Text)
  | misplaced (text : Text)
  | outOfRange (value limit : Int)
  | divisionByZero
  | tooFewProcesses (count limit : Int)
  | scheduleOverflow (size limit : Int)
deriving DecidableEq, Repr

namespace Fault

def limitMessage (what : Text) (value limit : Int) : Text :=
  what ++ (": " : Text) ++ Text.groupedInt value ++ (" (limit " : Text) ++ Text.groupedInt limit ++
    (")" : Text)

def kindList (kinds : List TokenKind) : Text :=
  ("[" : Text) ++ Text.join " " (kinds.map TokenKind.name) ++ ("]" : Text)

def foundMessage : Option Token → Text
  | none => "end of line"
  | some t => t.kind.name ++ (" " : Text) ++ Text.quote t.text

def message : Fault → Text
  | unrecognized t => Text.quote t ++ (" unrecognized token" : Text)
  | unexpected expected found =>
    ("unexpected token: expected " : Text) ++ kindList expected ++ (", found " : Text) ++
      foundMessage found
  | trailing t => Text.quote t ++ (" unexpected tokens after statement" : Text)
  | undeclared n => Text.quote n ++ (" was not declared in this scope" : Text)
  | duplicateSymbol n => Text.quote n ++ (" was already defined in this scope" : Text)
  | duplicateProcess n => Text.quote n ++ (" process already defined" : Text)
  | wrongKind n => Text.quote n ++ (" is the wrong kind of symbol" : Text)
  | misplaced t => Text.quote t ++ (" not permitted in this scope" : Text)
  | outOfRange v l => limitMessage "value out of range" v l
  | divisionByZero => "'/' division by zero"
  | tooFewProcesses n l => limitMessage "too few processes" n l
  | scheduleOverflow n l => limitMessage "sequence table overflow" n l

end Fault
end BarrelAsm
