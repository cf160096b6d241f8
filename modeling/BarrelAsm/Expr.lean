import BarrelAsm.Arith
import BarrelAsm.Scope
import BarrelAsm.Token.Split

/-! Reading the operands of an instruction. Expressions are values and operators, strictly from left
to right. -/
namespace BarrelAsm.Expr

def apply (op : Text) (a b : Int) : Except Fault Int :=
  if op = ("*" : Text) then .ok (Arith.mul a b)
  else if op = ("+" : Text) then .ok (Arith.add a b)
  else if op = ("-" : Text) then .ok (Arith.sub a b)
  else if op = ("/" : Text) then if b = 0 then .error .divisionByZero else .ok (Arith.div a b)
  else .ok a

/-- Go on from the value `acc` up to a comma, which is left, or the end of the line. -/
def continueFrom (s : Scope) (acc : Int) : List Token → Except Fault Int × List Token
  | [] => (.ok acc, [])
  | t :: ts =>
    if t.kind = .comma then (.ok acc, t :: ts)
    else
      match t.require [.operator], ts with
      -- The token at fault is consumed, as it is everywhere else.
      | .error f, ts => (.error f, ts)
      | .ok _, [] => (.error (.unexpected Scope.valueKinds none), [])
      | .ok op, u :: rest =>
        match s.valueOf u >>= apply op.text acc with
        | .error f => (.error f, rest)
        | .ok v => continueFrom s v rest

def evaluate (s : Scope) : Reader Int := fun ts =>
  match ts with
  | [] => (.error (.unexpected Scope.valueKinds none), [])
  | t :: rest =>
    match s.valueOf t with
    | .error f => (.error f, rest)
    | .ok v => continueFrom s v rest

def immediate (s : Scope) : Reader Int := do
  Reader.ahead Scope.valueKinds
  evaluate s

/-- An expression, or 0 at the end of the line. -/
def optional (s : Scope) : Reader Int := do
  if ← Reader.more then immediate s else return 0

def size (s : Scope) (text : Text) : Except Fault Int := do
  let v ← ((do let v ← evaluate s; Reader.finish; return v : Reader Int) (Token.tokenize text)).1
  if v < 0 then throw (.outOfRange v 0)
  return v

end BarrelAsm.Expr

namespace BarrelAsm.Reader

def register (s : Scope) : Reader Register := do
  let t ← expect [.identifier]
  s.registerNamed t.text

/-- A register that may be indirect. -/
def operand (s : Scope) : Reader Operand := do
  let t ← expect [.identifier, .indirection]
  return ⟨← s.registerNamed t.text, t.kind = .indirection⟩

def indirection (s : Scope) : Reader Register := do
  let t ← expect [.indirection]
  s.registerNamed t.text

def label (s : Scope) : Reader Int := do
  let t ← expect [.identifier]
  s.labelNamed t.text

/-- The address of a label, cut to 16 bits. -/
def target (s : Scope) : Reader UInt16 := do
  return UInt16.ofInt (← label s)

def maxBit : Int := 15

def bit (s : Scope) : Reader UInt8 := do
  let v ← Expr.immediate s
  if v < 0 ∨ maxBit < v then throw (.outOfRange v maxBit)
  return UInt8.ofInt v

end BarrelAsm.Reader
