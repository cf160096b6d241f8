import BarrelAsm.Pseudo
import BarrelAsm.Symbol
import BarrelAsm.Token.Cursor

/-! What the names of a statement stand for. -/
namespace BarrelAsm

/-- The symbols, and the process that is being assembled, whose names come first. -/
structure Scope where
  symbols : SymbolTable
  process : Option Text

namespace Scope

def qualifier : Option Text → Text
  | none => []
  | some p => p ++ [46]

def lookup (s : Scope) (name : Text) : Except Fault Symbol :=
  s.symbols.lookup (qualifier s.process) name

def valueKinds : List TokenKind := [.number, .identifier]

/-- A symbol as a value: a constant counts with its value, data and labels with their location. -/
def symbolValue (name : Text) (sym : Symbol) : Except Fault Int :=
  match sym.kind with
  | .const => .ok sym.value
  | .data | .label => .ok sym.location
  | _ => .error (.wrongKind name)

def valueOf (s : Scope) (t : Token) : Except Fault Int := do
  let t ← t.require valueKinds
  if t.kind = .number then return t.value
  symbolValue t.text (← s.lookup t.text)

/-- The register that a name stands for; its location is cut to 8 bits. -/
def registerNamed (s : Scope) (name : Text) : Except Fault Register := do
  let sym ← s.lookup name
  if sym.kind = .register then return UInt8.ofInt sym.location
  throw (.wrongKind name)

def labelNamed (s : Scope) (name : Text) : Except Fault Int := do
  let sym ← s.lookup name
  if sym.kind = .label then return sym.location
  throw (.wrongKind name)

end Scope
end BarrelAsm
