import BarrelAsm.Assembly.Declaration
import BarrelAsm.Assembly.Statement

/-! The first pass: declarations, labels and process starts. -/
namespace BarrelAsm

namespace Handler

variable {m : Type → Type} [Monad m] [MonadTrap m]

/-- Put a label on the address of the next word. -/
def defineLabel (name : Text) : Handler m Unit := do
  let a ← get
  if a.process.isNone then throw (.misplaced name)
  insertSymbol (a.qualify name) ⟨.label, a.pc, 1, a.pc⟩

def defineLabels : List Text → Handler m Unit
  | [] => return
  | l :: ls => do
    defineLabel l
    defineLabels ls

def openProcess (ts : List Token) : Handler m Unit := do
  if (← get).process.isSome then throw (.misplaced "process")
  let (name, _) ← read Statement.processName ts
  let processes ← (← get).processes.register name (← get).pc
  modify fun a => { a with processes }
  modify fun a => { a with process := some name }

def closeProcess (ts : List Token) : Handler m Unit := do
  if (← get).process.isNone then throw (.misplaced "endprocess")
  let _ ← read Reader.finish ts
  modify fun a => { a with process := none }

def declare (line : Line) : List Token → Handler m Unit
  | [] => return
  | t :: ts =>
    match t.kind with
    | .regDecl => declareRegister line ts
    | .constDecl => declareConst line ts
    | .dataDecl => declareData line ts
    | .process => openProcess ts
    | .endProcess => closeProcess ts
    | .instruction => modify fun a => { a with pc := a.pc + 1 }
    | .pseudo => do
      check (PseudoOp.ofName? t.text).isSome (.unknownPseudo t.text)
      modify fun a => { a with pc := a.pc + Assembly.pseudoSize t.text }
    | _ => throw (Statement.unexpected t)

/-- The first pass over a line; a line without a statement is listed as it is. -/
def firstPass (line : Line) : Handler m Unit := do
  modify (·.visit line)
  match Statement.ofLine? line.text with
  | none => list line (-1) []
  | some s =>
    defineLabels s.labels
    declare line s.body

end Handler

def Assembly.firstPass (line : Line) (a : Assembly) : Outcome :=
  Id.run ((Handler.firstPass line).outcome a)

end BarrelAsm
