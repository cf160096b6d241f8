import BarrelAsm.Expr

/-! Reading native instructions. -/
namespace BarrelAsm.Instruction
open Reader

/-- The source of a bit operation; without one it is the target. -/
def readSource (s : Scope) (target : Operand) : Reader Operand := do
  if ← more then
    comma
    operand s
  else return target

def read (s : Scope) : Mnemonic → Reader Instruction
  | .alu op => do
    let t ← operand s
    comma
    let l ← register s
    comma
    return .alu op t l (← operand s)
  | .srl => do
    let t ← operand s
    comma
    return .srl t (← register s)
  | .immediate op => do
    let t ← register s
    comma
    return .immediate op t (UInt16.ofInt (← Expr.immediate s))
  | .jalr => do
    let t ← register s
    comma
    return .jalr t (← register s)
  | .compare op => do
    let t ← register s
    comma
    let l ← register s
    comma
    return .compare op t l (← register s)
  | .bitTest op => do
    let t ← register s
    comma
    let b ← bit s
    comma
    return .bitTest op t b (← register s)
  | .bitFlag op => do
    let t ← operand s
    comma
    let b ← bit s
    return .bitFlag op t b (← readSource s t)
  | .nop => return .nop

def readAll (s : Scope) (m : Mnemonic) : Reader Instruction := do
  let i ← read s m
  finish
  return i

end BarrelAsm.Instruction
