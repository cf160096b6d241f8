import BarrelAsm.Assembly.State
import BarrelAsm.Check

/-! Handlers: parts of an assembly that change its state step by step, up to their end or a fault.
-/
namespace BarrelAsm

/-- Code that works on the state of an assembly and may stop at a fault, with the state as it is
then. What a failed check does is left to `m`. -/
abbrev Handler (m : Type → Type) := ExceptT Fault (StateT Assembly m)

abbrev Outcome := Assembly × Option Fault

/-- The text of the words of an expansion after the first one. -/
def Listing.continuation : Text := "<________|"

/-- Whether the place of a source line is in the listing when room has been made for it. -/
def Listing.HasPlace (l : Listing) (line : Nat) : Prop :=
  let n : Int := line - 1 + l.offset
  0 ≤ n ∧ n < (reserve l.entries n.toNat).size

instance (l : Listing) (line : Nat) : Decidable (l.HasPlace line) :=
  inferInstanceAs (Decidable (_ ∧ _))

namespace Handler

variable {m : Type → Type} [Monad m] [MonadTrap m] {α : Type}

instance : MonadTrap (Handler m) where
  trap t := liftM (MonadTrap.trap t : m Unit)

def outcome (h : Handler m Unit) (a : Assembly) : m Outcome := do
  match ← h.run.run a with
  | (.ok (), b) => return (b, none)
  | (.error f, b) => return (b, some f)

/-- Read from tokens; the tokens that are left go with the result. -/
def read (r : Reader α) (ts : List Token) : Handler m (α × List Token) :=
  match r ts with
  | (.ok x, rest) => return (x, rest)
  | (.error f, _) => throw f

def insertSymbol (name : Text) (sym : Symbol) : Handler m Unit := do
  let symbols ← (← get).symbols.insert name sym
  modify fun a => { a with symbols }

def allocRegister (name : Text) (value : Int) : Handler m Nat := do
  let location := (← get).registerNext
  if Assembly.registerLimit ≤ location then
    throw (.outOfRange (location + 1) Assembly.registerLimit)
  -- Under a name that is in use nothing is allocated.
  insertSymbol name ⟨.register, value, 1, location⟩
  modify fun a => { a with registerNext := a.registerNext + 1 }
  modify fun a => { a with registers := a.registers.push (UInt16.ofInt value) }
  return location

def list (line : Line) (location : Int) (payload : Text) : Handler m Unit := do
  check ((← get).listing.HasPlace line.number) (.noPlace line.number)
  modify (·.list line location payload)

/-- List words at the next addresses. Those of an expansion are inserted in front of the place of
their line. -/
def listWords (insert : Bool) (line : Line) : Text → List Word → Handler m Unit
  | _, [] => return
  | text, w :: ws => do
    check ((← get).listing.HasPlace line.number) (.noPlace line.number)
    modify fun a =>
      if insert then { a with listing := a.listing.insertLine line.number a.pc w.text text }
      else { a with listing := a.listing.logLine line.number a.pc w.text text }
    modify fun a => { a with pc := a.pc + 1 }
    listWords insert line Listing.continuation ws

def emit (insert : Bool) (line : Line) (ws : List Word) : Handler m Unit := do
  modify fun a => { a with opcodes := a.opcodes.push ⟨line.number, a.pc, ws, line.text⟩ }
  listWords insert line line.text ws

end Handler

section Lines

variable {m : Type → Type} [Monad m]

def runLinesM (step : Line → Assembly → m Outcome) :
    List Line → Assembly → m (Assembly × Option (Line × Fault))
  | [], a => return (a, none)
  | l :: ls, a => do
    match ← step l a with
    | (a, none) => runLinesM step ls a
    | (a, some f) => return (a, some (l, f))

end Lines

def runLines (step : Line → Assembly → Outcome) (lines : List Line) (a : Assembly) :
    Assembly × Option (Line × Fault) :=
  Id.run (runLinesM (fun l a => pure (step l a)) lines a)

end BarrelAsm
