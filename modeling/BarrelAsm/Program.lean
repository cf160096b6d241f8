import BarrelAsm.Arith
import BarrelAsm.Listing
import BarrelAsm.Word

/-! Assembled programs and the lines of their output files. -/
namespace BarrelAsm

/-- The words that a source line stands for. -/
structure Opcode where
  line : Int
  /-- The program address of the first word. -/
  address : Int
  words : List Word
  text : Text
deriving DecidableEq, Repr, Inhabited

structure Program where
  opcodes : Array Opcode := #[]
  data : Array UInt8 := #[]
  /-- Initial values, by register location. -/
  registers : Array UInt16 := #[]
  /-- The locations of all slots, process by process. -/
  starts : List Int := []
  sequence : List Int := []
  processCount : Int := 0
  listing : Listing := {}
deriving DecidableEq, Repr

def Opcode.covers (op : Opcode) (address : Int) : Bool :=
  op.address ≤ address && address < Arith.add op.address op.words.length

/-- Run the body on one item after the other until it leaves the loop. -/
def Loop.run {α σ : Type} (body : α → σ → ForInStep σ) : List α → σ → ForInStep σ
  | [], s => .yield s
  | x :: xs, s =>
    match body x s with
    | .yield s => run body xs s
    | .done s => .done s

namespace Program

variable {σ : Type}

def words (p : Program) : List Word := p.opcodes.toList.flatMap (·.words)

def codes (p : Program) : List (Int × Word) :=
  p.opcodes.toList.flatMap fun op =>
    op.words.zipIdx.map fun (w, n) => (Arith.add op.address n, w)

def forWords (p : Program) (body : Word → σ → ForInStep σ) : σ → ForInStep σ :=
  Loop.run (fun op => Loop.run body op.words) p.opcodes.toList

def forCodes (p : Program) (body : Int × Word → σ → ForInStep σ) : σ → ForInStep σ :=
  Loop.run (fun op => Loop.run (fun (w, n) => body (Arith.add op.address (n : Nat), w))
    op.words.zipIdx) p.opcodes.toList

def binary (p : Program) : List UInt32 :=
  (p.forWords (fun w bs => .yield (bs ++ [w.bits])) []).value

/-- The opcode with a word at this address, and the index of that word. -/
def debug? (p : Program) (address : Int) : Option (Opcode × Int) :=
  (p.opcodes.find? (·.covers address)).map fun op => (op, Arith.sub address op.address)

def instructionLines (p : Program) : List Text := p.words.map Word.text

def dataLines (p : Program) : List Text := p.data.toList.map fun b => Text.hexNat 2 b.toNat

def registerLines (p : Program) : List Text := p.registers.toList.map fun r => Text.hexNat 4 r.toNat

def startLines (p : Program) : List Text := p.starts.map (Text.hexInt 4)

def sequenceLines (p : Program) : List Text := p.sequence.map (Text.hexInt 4)

def summary (p : Program) : Text :=
  ("processes " : Text) ++ Text.groupedInt p.processCount ++
    (", registers " : Text) ++ Text.groupedNat p.registers.size ++
    (", data " : Text) ++ Text.groupedNat p.data.size ++
    (", instructions " : Text) ++ Text.groupedNat p.words.length

end Program
end BarrelAsm
