import BarrelAsm.Arith
import BarrelAsm.Process.Order
import BarrelAsm.Process.Registry

/-! The round robin schedule of all processes. -/
namespace BarrelAsm

/-- A slot starts before another if the 64-bit difference of their locations is negative. -/
def Slot.startsBefore (a b : Slot) : Bool := Arith.sub a.location b.location < 0

def Registry.sequenceDepth : Int := 511

section Checks

variable {m : Type → Type} [Monad m] [MonadTrap m]

/-- The location that a process runs at in a step: its slots take turns. -/
def Process.locationAtM (p : Process) (step : Nat) : m Int := do
  match p.slots[step % p.slots.length]? with
  | some s => return s.location
  | none =>
    MonadTrap.trap (.noSlot p.name)
    return 0

namespace Registry

def cycleLengthM (r : Registry) : m Int := Arith.lcmM (r.processes.map fun p => p.slots.length)

def checkCapacityM (r : Registry) : m (Except Fault Unit) := do
  let size := Arith.mul r.count (← r.cycleLengthM)
  return if size > sequenceDepth then .error (.scheduleOverflow size sequenceDepth) else .ok ()

def sequenceM (r : Registry) : m (List Int) := do
  let cycle ← r.cycleLengthM
  let steps ← (List.range cycle.toNat).mapM fun step => r.processes.mapM (·.locationAtM step)
  return steps.flatten

end Registry
end Checks

def Process.locationAt (p : Process) (step : Nat) : Int := Id.run (p.locationAtM step)

namespace Registry

def finalize (r : Registry) : Registry :=
  ⟨r.processes.map fun p => { p with slots := Order.sort Slot.startsBefore p.slots }⟩

def starts (r : Registry) : List Int := r.processes.flatMap fun p => p.slots.map (·.location)

/-- The number of steps before the schedule repeats. -/
def cycleLength (r : Registry) : Int := Id.run r.cycleLengthM

def checkCapacity (r : Registry) : Except Fault Unit := Id.run r.checkCapacityM

/-- For every step of the cycle, the location that each process runs at. -/
def sequence (r : Registry) : List Int := Id.run r.sequenceM

end Registry
end BarrelAsm
