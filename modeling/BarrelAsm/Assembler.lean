import BarrelAsm.Assembly.FirstPass
import BarrelAsm.Assembly.SecondPass
import BarrelAsm.Process.Schedule

/-! The two passes over a source text, and assemblers, which are used for one source after another.
-/
namespace BarrelAsm

inductive Diagnostic where
  | lineTooLong
  | program (fault : Fault)
  | line (line : Line) (fault : Fault)
deriving DecidableEq, Repr

def Diagnostic.message : Diagnostic → Text
  | lineTooLong => "bufio.Scanner: token too long"
  | program f => f.message
  | line l f =>
    ("line " : Text) ++ Text.groupedNat l.number ++ (" " : Text) ++ Text.quote l.text ++
      (" " : Text) ++ f.message

def Line.ofTexts (texts : List Text) : List Line := (texts.zipIdx 1).map fun (t, n) => ⟨n, t⟩

namespace Assembly

def processMinimum : Nat := 7

def checkProcessCount (r : Registry) : Except Fault Unit :=
  if r.count < processMinimum then .error (.tooFewProcesses r.count processMinimum) else .ok ()

def beginPass (a : Assembly) : Assembly := { a with pc := 0, process := none }

def restart (a : Assembly) : Assembly := { a with processes := a.processes.finalize }.beginPass

def clear (a : Assembly) (lines : Nat) : Assembly :=
  { a with
    symbols := {}
    processes := {}
    pc := 0
    dataNext := 0x200
    registerNext := 0
    process := none
    addresses := #[]
    opcodes := #[]
    data := #[]
    registers := #[]
    listing := (Listing.blank? lines).getD {}
    events := #[] }

end Assembly

namespace Handler

variable {m : Type → Type} [Monad m]

def insertSymbols : List (Text × Symbol) → Handler m Unit
  | [] => return
  | (name, sym) :: es => do
    insertSymbol name sym
    insertSymbols es

/-- Forget the last assembly, and insert the constants in name order. -/
def reset (constants : Constants) (lines : Nat) : Handler m Unit := do
  modify (·.clear lines)
  insertSymbols constants.symbols.entries

end Handler

namespace Assembly

variable {m : Type → Type} [Monad m] [MonadTrap m]

def programM (a : Assembly) : m Program := do
  return {
    opcodes := a.opcodes
    data := a.data
    registers := a.registers
    starts := a.processes.starts
    sequence := ← a.processes.sequenceM
    processCount := a.processes.count
    listing := a.listing }

def finishM (a : Assembly) : m (Assembly × Except Diagnostic Program) := do
  match ← a.processes.checkCapacityM with
  | .error f => return (a, .error (.program f))
  | .ok () =>
    let program ← a.programM
    return (a.record (.finished a.processes.count a.registers.size a.data.size a.pc), .ok program)

def passesM (a : Assembly) (lines : List Line) : m (Assembly × Except Diagnostic Program) := do
  match ← runLinesM (fun l => (Handler.firstPass l).outcome) lines a.beginPass with
  | (a, some (l, f)) => return (a, .error (.line l f))
  | (a, none) =>
    -- Too few processes are reported before anything that the second pass would find.
    match checkProcessCount a.processes with
    | .error f => return (a, .error (.program f))
    | .ok () =>
      match ← runLinesM (fun l => (Handler.secondPass l).outcome) lines a.restart with
      | (a, some (l, f)) => return (a, .error (.line l f))
      | (a, none) => a.finishM

def assembleM (a : Assembly) (constants : Constants) (lines : List Line) :
    m (Assembly × Except Diagnostic Program) := do
  match ← (Handler.reset constants lines.length).outcome a with
  | (a, some f) => return (a, .error (.program f))
  | (a, none) => a.passesM lines

end Assembly

structure Report where
  result : Except Diagnostic Program
  events : Array Event := #[]

/-- An assembler keeps its constants, and the state that the last assembly ended in. -/
structure Assembler extends Assembly where
  constants : Constants := {}

namespace Assembler

/-- Assemble a source text. A line that is too long leaves the assembler as it was. -/
def assemble (as : Assembler) (source : Text) : Assembler × Report :=
  match Text.lines? source with
  | none => (as, ⟨.error .lineTooLong, #[]⟩)
  | some texts =>
    let (a, result) := Id.run (as.toAssembly.assembleM as.constants (Line.ofTexts texts))
    ({ as with toAssembly := a }, ⟨result, a.events⟩)

end Assembler

/-- An assembler in use; in verbose mode it reports what it does. -/
structure Session where
  assembler : Assembler := {}
  verbose : Bool := false

inductive Call where
  | predefine (name : Text) (value : Int)
  | predefineFormula (name formula : Text)
  | assemble (source : Text)
  | insert (name : Text) (sym : Symbol)
  | register (name : Text) (location : Int)
  | setVerbose (on : Bool)

namespace Session

def constants (s : Session) : Constants := s.assembler.constants

def assemble (s : Session) (source : Text) : Session × Except Diagnostic Program × List Text :=
  let (assembler, report) := s.assembler.assemble source
  ({ s with assembler }, report.result,
    if s.verbose then report.events.toList.map Event.message else [])

/-- The session after a call. What fails changes nothing, but for an assembly. -/
def perform {ε : Type} (interpret : Interpreter ε) (s : Session) : Call → Session
  | .predefine name value =>
    { s with assembler := { s.assembler with constants := s.constants.set name value } }
  | .predefineFormula name formula =>
    match s.constants.defineBy interpret name formula with
    | .ok constants => { s with assembler := { s.assembler with constants } }
    | .error _ => s
  | .assemble source => (s.assemble source).1
  | .insert name sym =>
    match s.assembler.symbols.insert name sym with
    | .ok symbols => { s with assembler := { s.assembler with symbols } }
    | .error _ => s
  | .register name location =>
    match s.assembler.processes.register name location with
    | .ok processes => { s with assembler := { s.assembler with processes } }
    | .error _ => s
  | .setVerbose on => { s with verbose := on }

def performAll {ε : Type} (interpret : Interpreter ε) (s : Session) (calls : List Call) : Session :=
  calls.foldl (perform interpret) s

end Session
end BarrelAsm
