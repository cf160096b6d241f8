import BarrelAsm.Text.Basic

/-! Instruction words: four bytes, from the opcode down to the second operand. -/
namespace BarrelAsm

structure Word where
  bits : UInt32
deriving DecidableEq, Repr, Inhabited

namespace Word

def make (opcode target operand1 operand2 : UInt8) : Word :=
  ⟨UInt32.ofNat (((opcode.toNat * 256 + target.toNat) * 256 + operand1.toNat) * 256 +
    operand2.toNat)⟩

/-- A word whose two operand bytes hold a 16-bit immediate. -/
def makeImmediate (opcode target : UInt8) (value : UInt16) : Word :=
  ⟨UInt32.ofNat ((opcode.toNat * 256 + target.toNat) * 65536 + value.toNat)⟩

/-- The flag of an opcode whose target is indirect. -/
def targetIndirect : UInt8 := 0x80

/-- The flag of an opcode whose last operand is indirect. -/
def operandIndirect : UInt8 := 0x40

def opcode (w : Word) : UInt8 := UInt8.ofNat (w.bits.toNat / 0x1000000)

def target (w : Word) : UInt8 := UInt8.ofNat (w.bits.toNat / 0x10000)

def operand1 (w : Word) : UInt8 := UInt8.ofNat (w.bits.toNat / 0x100)

def operand2 (w : Word) : UInt8 := UInt8.ofNat w.bits.toNat

def immediate (w : Word) : UInt16 := UInt16.ofNat w.bits.toNat

def text (w : Word) : Text := Text.hexNat 8 w.bits.toNat

end Word
end BarrelAsm
