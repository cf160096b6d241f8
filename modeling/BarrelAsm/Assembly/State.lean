import BarrelAsm.Process.Registry
import BarrelAsm.Program
import BarrelAsm.Scope

/-! The state of an assembly. -/
namespace BarrelAsm

/-- A source line; the first one has number 1. -/
structure Line where
  number : Nat
  text : Text
deriving DecidableEq, Repr

inductive Event where
  | line (pass : Nat) (line : Line)
  | scratch (line : Nat) (name : Text) (location : Nat)
  | finished (processes registers data instructions : Nat)
deriving DecidableEq, Repr

def Event.message : Event → Text
  | line pass l =>
    Text.ofNat pass ++ ("." : Text) ++ Text.ofNat l.number ++ (": " : Text) ++ l.text
  | scratch n name loc =>
    Text.ofNat n ++ (": scratch register " : Text) ++ name ++ (" at 0x" : Text) ++ Text.hexNat 2 loc
  | finished p r d i =>
    ("processes " : Text) ++ Text.ofNat p ++ (", registers " : Text) ++ Text.ofNat r ++
      (", data " : Text) ++ Text.ofNat d ++ (", instructions " : Text) ++ Text.ofNat i

/-- The tables built so far, and where the next item of each kind goes. -/
structure Assembly where
  symbols : SymbolTable := {}
  processes : Registry := {}
  opcodes : Array Opcode := #[]
  data : Array UInt8 := #[]
  registers : Array UInt16 := #[]
  listing : Listing := {}
  /-- The program address of the next word. -/
  pc : Nat := 0
  /-- The data address of the next byte; the data segment starts at 0x200. -/
  dataNext : Nat := 0x200
  registerNext : Nat := 0
  process : Option Text := none
  /-- The program address at the start of each line, as the first pass found it. -/
  addresses : Array Nat := #[]
  events : Array Event := #[]

namespace Assembly

def scope (a : Assembly) : Scope := ⟨a.symbols, a.process⟩

def qualify (a : Assembly) (name : Text) : Text := Scope.qualifier a.process ++ name

def list (a : Assembly) (line : Line) (location : Int) (payload : Text) : Assembly :=
  { a with listing := a.listing.logLine line.number location payload line.text }

def record (a : Assembly) (e : Event) : Assembly := { a with events := a.events.push e }

def visit (a : Assembly) (line : Line) : Assembly :=
  { a with events := a.events.push (.line 1 line), addresses := a.addresses.push a.pc }

def registerLimit : Nat := 0x100

def scratchName (process : Option Text) : Text :=
  ("___macro" : Text) ++ Scope.qualifier process ++ ("1__" : Text)

def pseudoSize (name : Text) : Nat := ((PseudoOp.ofName? name).map PseudoOp.size).getD 0

end Assembly
end BarrelAsm
