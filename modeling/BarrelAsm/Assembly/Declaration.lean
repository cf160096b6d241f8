import BarrelAsm.Assembly.Handler
import BarrelAsm.Expr

/-! Declarations of constants, registers and data. -/
namespace BarrelAsm

inductive DataItem where
  | value (v : Int)
  | string (s : Text)
  | zeros (n : Int)
deriving DecidableEq, Repr

namespace DataItem

/-- The value of the symbol; that of a string is its first byte. -/
def firstValue : DataItem → Int
  | value v => v
  | string s => ((s.head?.map UInt8.toNat).getD 0 : Nat)
  | zeros _ => 0

/-- The size of the symbol; that of a string does not count its final zero. -/
def size : DataItem → Int
  | value _ => 1
  | string s => s.length
  | zeros n => n

def bytes : DataItem → Text
  | value v => [UInt8.ofInt v]
  | string s => s ++ [0]
  | zeros n => List.replicate n.toNat 0

def kinds : List TokenKind := [.identifier, .string, .number, .size]

/-- Read a data item; without one it is the value 0. -/
def read (s : Scope) : Reader DataItem := fun ts =>
  match ts with
  | [] => (.ok (.value 0), [])
  | t :: rest =>
    match t.require kinds with
    | .error f => (.error f, rest)
    | .ok t =>
      match t.kind with
      | .string => (.ok (.string t.text), rest)
      | .size => ((Expr.size s t.text).map .zeros, rest)
      | _ => (value <$> Expr.evaluate s : Reader DataItem) (t :: rest)

end DataItem

namespace Handler

variable {m : Type → Type} [Monad m] [MonadTrap m]

def declareConst (line : Line) (ts : List Token) : Handler m Unit := do
  if (← get).process.isSome then throw (.misplaced ".const")
  let (name, ts) ← read (Reader.expect [.identifier]) ts
  let (value, ts) ← read (Expr.immediate (← get).scope) ts
  let _ ← read Reader.finish ts
  insertSymbol name.text ⟨.const, value, 0, 0⟩
  list line 0 (Text.hex16 value)

def declareRegister (line : Line) (ts : List Token) : Handler m Unit := do
  let (name, ts) ← read (Reader.expect [.identifier]) ts
  let (value, ts) ← read (Expr.optional (← get).scope) ts
  let _ ← read Reader.finish ts
  let location ← allocRegister ((← get).qualify name.text) value
  list line location (Text.hex16 value)

def declareData (line : Line) (ts : List Token) : Handler m Unit := do
  let (name, ts) ← read (Reader.expect [.identifier]) ts
  let (item, ts) ← read (DataItem.read (← get).scope) ts
  check (0 ≤ item.size) (.negativeSize item.size)
  let _ ← read Reader.finish ts
  let location := (← get).dataNext
  insertSymbol ((← get).qualify name.text) ⟨.data, item.firstValue, item.size, location⟩
  modify fun a => { a with dataNext := a.dataNext + item.bytes.length }
  modify fun a => { a with data := a.data ++ item.bytes.toArray }
  list line location (Text.hex16 item.firstValue)

end Handler
end BarrelAsm
