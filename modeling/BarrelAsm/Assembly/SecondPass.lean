import BarrelAsm.Assembly.Handler
import BarrelAsm.Assembly.Statement
import BarrelAsm.Instruction.Read
import BarrelAsm.Pseudo.Read

/-! The second pass: instruction words. -/
namespace BarrelAsm

namespace Handler

variable {m : Type → Type} [Monad m] [MonadTrap m]

/-- The scratch register of the scope, which is allocated when it is first used. -/
def scratch (line : Line) : Handler m Register := do
  let name := Assembly.scratchName (← get).process
  match (← get).symbols.get? name with
  | some sym => return UInt8.ofInt sym.location
  | none =>
    let location ← allocRegister name 0
    modify (·.record (.scratch line.number name location))
    return UInt8.ofNat location

def scratchFor (line : Line) (p : Pseudo) : Handler m Register :=
  if p.usesScratch then scratch line else return .zero

def encode (line : Line) (op : Mnemonic) (ts : List Token) : Handler m Unit := do
  let (i, _) ← read (Instruction.readAll (← get).scope op) ts
  emit false line [i.word]

/-- Assemble a pseudo-instruction. Its scratch register stays even if tokens are left over. -/
def expand (line : Line) (op : PseudoOp) (ts : List Token) : Handler m Unit := do
  let (p, ts) ← read (Pseudo.read (← get).scope op) ts
  let register ← scratchFor line p
  let _ ← read Reader.finish ts
  let words := p.words register
  check (words.length = op.size) (.wordCount op.name)
  emit true line words

def reopenProcess (line : Line) (ts : List Token) : Handler m Unit := do
  if (← get).process.isSome then throw (.misplaced "process")
  let (name, _) ← read Statement.processName ts
  list line (← get).pc []
  modify fun a => { a with process := some name }

def recloseProcess (line : Line) (ts : List Token) : Handler m Unit := do
  if (← get).process.isNone then throw (.misplaced "endprocess")
  let _ ← read Reader.finish ts
  list line (-1) []
  modify fun a => { a with process := none }

/-- The part of a statement behind its labels; a line of labels only lists the address. -/
def generate (line : Line) : List Token → Handler m Unit
  | [] => do list line (← get).pc []
  | t :: ts =>
    match t.kind with
    | .regDecl | .constDecl | .dataDecl => return
    | .process => reopenProcess line ts
    | .endProcess => recloseProcess line ts
    | .instruction =>
      match Mnemonic.ofName? t.text with
      | some op => encode line op ts
      | none => throw (Statement.unexpected t)
    | .pseudo =>
      match PseudoOp.ofName? t.text with
      | some op => expand line op ts
      | none => do
        -- The token has its kind from this very name.
        MonadTrap.trap (.unknownPseudo t.text)
        throw (Statement.unexpected t)
    | _ => throw (Statement.unexpected t)

def generateLine (line : Line) : Handler m Unit :=
  match Statement.ofLine? line.text with
  | none => return
  | some s => generate line s.body

def checkAddress (line : Line) : Handler m Unit := do
  let a ← get
  match a.addresses[line.number - 1]? with
  | some address => check (address = a.pc) (.addressMismatch line.number)
  | none => MonadTrap.trap (.noAddress line.number)

def secondPass (line : Line) : Handler m Unit := do
  modify (·.record (.line 2 line))
  checkAddress line
  generateLine line

end Handler

def Assembly.secondPass (line : Line) (a : Assembly) : Outcome :=
  Id.run ((Handler.secondPass line).outcome a)

end BarrelAsm
