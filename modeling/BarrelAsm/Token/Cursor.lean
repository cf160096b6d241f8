import BarrelAsm.Fault

/-! Reading tokens from left to right. -/
namespace BarrelAsm

def Token.require (kinds : List TokenKind) (t : Token) : Except Fault Token :=
  if t.kind ∈ kinds then .ok t
  else if t.kind = .unknown then .error (.unrecognized t.text)
  else .error (.unexpected kinds (some t))

/-- A reader consumes tokens from the front; what is left is known also after a failure. -/
abbrev Reader := ExceptT Fault (StateM (List Token))

namespace Reader

def expect (kinds : List TokenKind) : Reader Token := fun ts =>
  match ts with
  | [] => (.error (.unexpected kinds none), [])
  | t :: rest => (t.require kinds, rest)

/-- Check the kind of the next token, which stays where it is if it is one of these. -/
def ahead (kinds : List TokenKind) : Reader Unit := fun ts =>
  match expect kinds ts with
  | (.ok _, _) => (.ok (), ts)
  | (.error f, rest) => (.error f, rest)

def more : Reader Bool := fun ts => (.ok !ts.isEmpty, ts)

def finish : Reader Unit := fun ts =>
  match ts with
  | [] => (.ok (), [])
  | t :: _ => (.error (.trailing t.text), ts)

def comma : Reader Unit := do
  let _ ← expect [.comma]

end Reader

structure Cursor where
  /-- The tokens passed, the last one first. -/
  passed : List Token
  rest : List Token
deriving Repr

namespace Cursor

def ofList (ts : List Token) : Cursor := ⟨[], ts⟩

def toList (c : Cursor) : List Token := c.passed.reverse ++ c.rest

def more (c : Cursor) : Bool := !c.rest.isEmpty

def peek? (c : Cursor) : Option Token := c.rest.head?

def next (c : Cursor) : Cursor :=
  match c.rest with
  | [] => c
  | t :: rest => ⟨t :: c.passed, rest⟩

def back (c : Cursor) : Cursor :=
  match c.passed with
  | [] => c
  | t :: passed => ⟨passed, t :: c.rest⟩

def expect (kinds : List TokenKind) (c : Cursor) : Except Fault Token × Cursor :=
  ((Reader.expect kinds c.rest).1, c.next)

def finish (c : Cursor) : Except Fault Unit := (Reader.finish c.rest).1

end Cursor
end BarrelAsm
