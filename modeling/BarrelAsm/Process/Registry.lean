import BarrelAsm.Fault

/-! Processes and the registry of their slots. -/
namespace BarrelAsm

/-- An entry that the schedule can run: where a process or one of its parts starts. -/
structure Slot where
  name : Text
  location : Int
deriving DecidableEq, Repr

/-- A process is plain, with one slot of its own name, or split into parts with a slot each. -/
structure Process where
  name : Text
  split : Bool
  slots : List Slot
deriving DecidableEq, Repr

namespace ProcessName

/-- The name before the first dot and, if there is a dot, the name of the part after it. -/
def split (name : Text) : Text × Option Text := (Text.before 46 name, Text.after? 46 name)

def isValid (name : Text) : Bool :=
  match split name with
  | (top, none) => Text.isName top
  | (top, some part) => Text.isName top && Text.isName part

end ProcessName

structure Registry where
  processes : List Process := []
deriving DecidableEq, Repr

namespace Registry

def count (r : Registry) : Nat := r.processes.length

def find? (r : Registry) (top : Text) : Option Process := r.processes.find? (·.name == top)

def addSlot (r : Registry) (top : Text) (slot : Slot) : Registry :=
  ⟨r.processes.map fun p => if p.name = top then { p with slots := p.slots ++ [slot] } else p⟩

def register (r : Registry) (name : Text) (location : Int) : Except Fault Registry :=
  match r.find? (ProcessName.split name).1, ProcessName.split name with
  | none, (top, none) => .ok ⟨r.processes ++ [⟨top, false, [⟨top, location⟩]⟩]⟩
  | none, (top, some part) => .ok ⟨r.processes ++ [⟨top, true, [⟨part, location⟩]⟩]⟩
  | some _, (_, none) => .error (.duplicateProcess name)
  | some p, (top, some part) =>
    if p.split && !p.slots.any (·.name == part) then .ok (r.addSlot top ⟨part, location⟩)
    else .error (.duplicateProcess name)

end Registry
end BarrelAsm
