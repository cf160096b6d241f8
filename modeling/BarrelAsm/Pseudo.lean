import BarrelAsm.Instruction

/-! Pseudo-instructions: each stands for a fixed number of instruction words. -/
namespace BarrelAsm

/-- Comparisons that are native with their two sources exchanged. -/
inductive OrderOp where
  | jler | jgtr
deriving DecidableEq, Repr

inductive StepOp where
  | inc | dec
deriving DecidableEq, Repr

inductive BranchOp where
  | jeq | jne | jlt | jge | jgt | jle
deriving DecidableEq, Repr

inductive BitBranchOp where
  | jbs | jbc
deriving DecidableEq, Repr

def OrderOp.native : OrderOp → CompareOp
  | jler => .jger
  | jgtr => .jltr

/-- The register that is added. -/
def StepOp.amount : StepOp → Register
  | inc => .one
  | dec => .minusOne

def BranchOp.native : BranchOp → CompareOp
  | jeq => .jeqr
  | jne => .jner
  | jlt => .jltr
  | jge => .jger
  | jgt => .jltr
  | jle => .jger

/-- Whether the native comparison takes the two sources exchanged. -/
def BranchOp.exchanges : BranchOp → Bool
  | jgt | jle => true
  | _ => false

def BitBranchOp.native : BitBranchOp → BitTestOp
  | jbs => .jbsr
  | jbc => .jbcr

inductive PseudoOp where
  | call | djnz | jmp | ret | sll | sub
  | order (op : OrderOp)
  | step (op : StepOp)
  | branch (op : BranchOp)
  | bitBranch (op : BitBranchOp)
  | ld | st | mov
deriving DecidableEq, Repr

namespace PseudoOp

def name : PseudoOp → Text
  | call => "call"
  | djnz => "djnz"
  | jmp => "jmp"
  | ret => "ret"
  | sll => "sll"
  | sub => "sub"
  | order .jler => "jler"
  | order .jgtr => "jgtr"
  | step .inc => "inc"
  | step .dec => "dec"
  | branch .jeq => "jeq"
  | branch .jne => "jne"
  | branch .jlt => "jlt"
  | branch .jge => "jge"
  | branch .jgt => "jgt"
  | branch .jle => "jle"
  | bitBranch .jbs => "jbs"
  | bitBranch .jbc => "jbc"
  | ld => "ld"
  | st => "st"
  | mov => "mov"

def size : PseudoOp → Nat
  | sub => 3
  | djnz | branch _ | bitBranch _ => 2
  | _ => 1

def all : List PseudoOp :=
  [call, djnz, jmp, ret, sll, sub, order .jler, order .jgtr, step .inc, step .dec,
    branch .jeq, branch .jne, branch .jlt, branch .jge, branch .jgt, branch .jle,
    bitBranch .jbs, bitBranch .jbc, ld, st, mov]

def ofName? (t : Text) : Option PseudoOp := all.find? (·.name == t)

end PseudoOp

/-- A pseudo-instruction with its operands read, in the order in which they are written. -/
inductive Pseudo where
  | call (link : Register) (label : UInt16)
  | djnz (counter : Register) (label : UInt16)
  | jmp (label : UInt16)
  | ret (link : Register)
  | sll (target : Operand) (source : Register)
  | sub (target : Operand) (left : Register) (right : Operand)
  | order (op : OrderOp) (target left right : Register)
  | step (op : StepOp) (register : Register)
  | branch (op : BranchOp) (left right : Register) (label : UInt16)
  | bitBranch (op : BitBranchOp) (source : Register) (bit : UInt8) (label : UInt16)
  | ld (target source : Register)
  | st (target source : Register)
  | mov (target source : Operand)
deriving DecidableEq, Repr

namespace Pseudo

def op : Pseudo → PseudoOp
  | call .. => .call
  | djnz .. => .djnz
  | jmp .. => .jmp
  | ret .. => .ret
  | sll .. => .sll
  | sub .. => .sub
  | order op .. => .order op
  | step op .. => .step op
  | branch op .. => .branch op
  | bitBranch op .. => .bitBranch op
  | ld .. => .ld
  | st .. => .st
  | mov .. => .mov

/-- Whether the expansion works in a scratch register. -/
def usesScratch : Pseudo → Bool
  | sub .. | branch .. | bitBranch .. => true
  | _ => false

def sumOpcode (target source : Operand) : UInt8 :=
  let opcode := AluOp.add.opcode
  let opcode := if target.indirect then opcode ||| Word.targetIndirect else opcode
  if source.indirect then opcode ||| Word.operandIndirect else opcode

def words (scratch : Register) : Pseudo → List Word
  | call r l => [.makeImmediate ImmediateOp.jal.opcode r l]
  | djnz r l =>
    [.make AluOp.add.opcode r r Register.minusOne, .makeImmediate ImmediateOp.jnz.opcode r l]
  | jmp l => [.makeImmediate ImmediateOp.jal.opcode Register.zero l]
  | ret r => [.make Mnemonic.jalr.opcode r r Register.zero]
  | sll t s => [.make (sumOpcode t (.direct s)) t.register s s]
  | sub t a b =>
    -- The difference is a sum with the negative, which is the complement and 1.
    let xor := AluOp.xor.opcode
    let xor := if b.indirect then xor ||| Word.operandIndirect else xor
    [.make xor scratch Register.minusOne b.register,
      .make AluOp.add.opcode scratch scratch Register.one,
      .make (sumOpcode t (.direct scratch)) t.register a scratch]
  | order op t a b => [.make op.native.opcode t b a]
  | step op r => [.make AluOp.add.opcode r r op.amount]
  | branch op a b l =>
    let (a, b) := if op.exchanges then (b, a) else (a, b)
    [.makeImmediate ImmediateOp.ldi.opcode scratch l, .make op.native.opcode scratch a b]
  | bitBranch op r n l =>
    [.makeImmediate ImmediateOp.ldi.opcode scratch l, .make op.native.opcode scratch n r]
  | ld t s => [.make (AluOp.add.opcode ||| Word.operandIndirect) t Register.zero s]
  | st t s => [.make (AluOp.add.opcode ||| Word.targetIndirect) t Register.zero s]
  | mov t s => [.make (sumOpcode t s) t.register Register.zero s.register]

end Pseudo
end BarrelAsm
