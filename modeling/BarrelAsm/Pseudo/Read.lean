import BarrelAsm.Expr

/-! Reading pseudo-instructions. -/
namespace BarrelAsm.Pseudo
open Reader

def read (s : Scope) : PseudoOp → Reader Pseudo
  | .call => do
    let r ← register s
    comma
    return .call r (← target s)
  | .djnz => do
    let r ← register s
    comma
    return .djnz r (← target s)
  | .jmp => return .jmp (← target s)
  | .ret => return .ret (← register s)
  | .sll => do
    let t ← operand s
    comma
    return .sll t (← register s)
  | .sub => do
    let t ← operand s
    comma
    let l ← register s
    comma
    return .sub t l (← operand s)
  | .order op => do
    let t ← register s
    comma
    let l ← register s
    comma
    return .order op t l (← register s)
  | .step op => return .step op (← register s)
  | .branch op => do
    let l ← register s
    comma
    let r ← register s
    comma
    return .branch op l r (← target s)
  | .bitBranch op => do
    let r ← register s
    comma
    let b ← bit s
    comma
    return .bitBranch op r b (← target s)
  | .ld => do
    let t ← register s
    comma
    return .ld t (← indirection s)
  | .st => do
    let t ← indirection s
    comma
    return .st t (← register s)
  | .mov => do
    let t ← operand s
    comma
    return .mov t (← operand s)

end BarrelAsm.Pseudo
