import BarrelAsm.Word

/-! Native instructions: mnemonics by family, operands, and the word of an instruction. -/
namespace BarrelAsm

inductive Family where
  | alu | shift | immediate | jump | compare | bitTest | bitFlag | nop
deriving DecidableEq, Repr

namespace Family

def name : Family → Text
  | alu => "alu"
  | shift => "shift"
  | immediate => "immediate"
  | jump => "jump"
  | compare => "compare"
  | bitTest => "bittest"
  | bitFlag => "bitflag"
  | nop => "nop"

def ofCode? : Int → Option Family
  | 0 => some alu
  | 1 => some shift
  | 2 => some immediate
  | 3 => some jump
  | 4 => some compare
  | 5 => some bitTest
  | 6 => some bitFlag
  | 7 => some nop
  | _ => none

/-- The name of the family with this number; a number without a family names itself. -/
def nameOfCode (code : Int) : Text :=
  match ofCode? code with
  | some f => f.name
  | none => ("Family(" : Text) ++ Text.ofInt code ++ (")" : Text)

end Family

inductive AluOp where
  | add | or | and | xor
deriving DecidableEq, Repr

inductive ImmediateOp where
  | ldi | jal | jz | jnz
deriving DecidableEq, Repr

inductive CompareOp where
  | jeqr | jner | jltr | jger
deriving DecidableEq, Repr

inductive BitTestOp where
  | jbsr | jbcr
deriving DecidableEq, Repr

inductive BitFlagOp where
  | setb | clrb
deriving DecidableEq, Repr

def AluOp.opcode : AluOp → UInt8
  | add => 0x00
  | or => 0x02
  | and => 0x03
  | xor => 0x04

def ImmediateOp.opcode : ImmediateOp → UInt8
  | ldi => 0x11
  | jal => 0x12
  | jz => 0x94
  | jnz => 0x95

def CompareOp.opcode : CompareOp → UInt8
  | jeqr => 0x99
  | jner => 0x9A
  | jltr => 0x9B
  | jger => 0x9C

def BitTestOp.opcode : BitTestOp → UInt8
  | jbsr => 0x9D
  | jbcr => 0x9E

def BitFlagOp.opcode : BitFlagOp → UInt8
  | setb => 0x07
  | clrb => 0x08

inductive Mnemonic where
  | alu (op : AluOp)
  | srl
  | immediate (op : ImmediateOp)
  | jalr
  | compare (op : CompareOp)
  | bitTest (op : BitTestOp)
  | bitFlag (op : BitFlagOp)
  | nop
deriving DecidableEq, Repr

namespace Mnemonic

def family : Mnemonic → Family
  | alu _ => .alu
  | srl => .shift
  | immediate _ => .immediate
  | jalr => .jump
  | compare _ => .compare
  | bitTest _ => .bitTest
  | bitFlag _ => .bitFlag
  | nop => .nop

/-- The opcode byte without indirection flags. -/
def opcode : Mnemonic → UInt8
  | alu op => op.opcode
  | srl => 0x06
  | immediate op => op.opcode
  | jalr => 0x98
  | compare op => op.opcode
  | bitTest op => op.opcode
  | bitFlag op => op.opcode
  | nop => 0x00

def name : Mnemonic → Text
  | alu .add => "add"
  | alu .or => "or"
  | alu .and => "and"
  | alu .xor => "xor"
  | srl => "srl"
  | immediate .ldi => "ldi"
  | immediate .jal => "jal"
  | immediate .jz => "jz"
  | immediate .jnz => "jnz"
  | jalr => "jalr"
  | compare .jeqr => "jeqr"
  | compare .jner => "jner"
  | compare .jltr => "jltr"
  | compare .jger => "jger"
  | bitTest .jbsr => "jbsr"
  | bitTest .jbcr => "jbcr"
  | bitFlag .setb => "setb"
  | bitFlag .clrb => "clrb"
  | nop => "nop"

def all : List Mnemonic :=
  [alu .add, alu .or, alu .and, alu .xor, srl, immediate .ldi, immediate .jal, immediate .jz,
    immediate .jnz, jalr, compare .jeqr, compare .jner, compare .jltr, compare .jger,
    bitTest .jbsr, bitTest .jbcr, bitFlag .setb, bitFlag .clrb, nop]

def ofName? (t : Text) : Option Mnemonic := all.find? (·.name == t)

end Mnemonic

abbrev Register := UInt8

namespace Register

/-- Registers 0, 1 and 2 hold the constants 0, 1 and -1. -/
def zero : Register := 0
def one : Register := 1
def minusOne : Register := 2

end Register

/-- A register operand; an indirect one names the register that holds an address. -/
structure Operand where
  register : Register
  indirect : Bool
deriving DecidableEq, Repr

def Operand.direct (r : Register) : Operand := ⟨r, false⟩

inductive Instruction where
  | alu (op : AluOp) (target : Operand) (left : Register) (right : Operand)
  | srl (target : Operand) (source : Register)
  | immediate (op : ImmediateOp) (target : Register) (value : UInt16)
  | jalr (target source : Register)
  | compare (op : CompareOp) (target left right : Register)
  | bitTest (op : BitTestOp) (target : Register) (bit : UInt8) (source : Register)
  | bitFlag (op : BitFlagOp) (target : Operand) (bit : UInt8) (source : Operand)
  | nop
deriving DecidableEq, Repr

namespace Instruction

def flagged (opcode : UInt8) (target second : Bool) : UInt8 :=
  let opcode := if target then opcode ||| Word.targetIndirect else opcode
  if second then opcode ||| Word.operandIndirect else opcode

def word : Instruction → Word
  | alu op t l r => .make (flagged op.opcode t.indirect r.indirect) t.register l r.register
  | srl t s => .make (flagged 0x06 t.indirect false) t.register s 0
  | immediate op t v => .makeImmediate op.opcode t v
  | jalr t s => .make 0x98 t s 0
  | compare op t l r => .make op.opcode t l r
  | bitTest op t b s => .make op.opcode t b s
  | bitFlag op t b s => .make (flagged op.opcode t.indirect s.indirect) t.register b s.register
  | nop => .make 0 0 0 0

end Instruction
end BarrelAsm
