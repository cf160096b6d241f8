import BarrelAsm.Text.Basic

/-! Writing to a device of any kind, the latch in front of it, and file systems with the calls that
are made of them. -/
namespace BarrelAsm

/-- What was wrong with a write, and how many of its bytes were kept all the same. -/
structure WriteFault where
  kept : Nat
  reason : Text
deriving DecidableEq, Repr

def WriteFault.part : Option WriteFault → Text → Text
  | none, t => t
  | some f, t => t.take f.kept

/-- A device takes texts one after the other. A write changes its state, and may fail. -/
abbrev Device (σ : Type) := σ → Text → σ × Option WriteFault

/-- A device behind a latch, which lets nothing through after the first write that failed and keeps
the reason of that failure. -/
structure Latch (σ : Type) where
  state : σ
  error : Option Text := none
deriving DecidableEq, Repr

namespace Latch

variable {σ : Type}

/-- Write through the latch; the number is that of the bytes written. -/
def write (d : Device σ) (l : Latch σ) (t : Text) : Latch σ × Nat :=
  match l.error with
  | some _ => (l, 0)
  | none =>
    match d l.state t with
    | (s, fault) => (⟨s, fault.map (·.reason)⟩, (WriteFault.part fault t).length)

def writeAll (d : Device σ) (l : Latch σ) (ts : List Text) : Latch σ :=
  ts.foldl (fun l t => (l.write d t).1) l

def writeUntilFault (d : Device σ) (l : Latch σ) : List Text → Latch σ
  | [] => l
  | t :: ts =>
    match l.write d t with
    | (⟨s, none⟩, _) => writeUntilFault d ⟨s, none⟩ ts
    | (⟨s, some e⟩, _) => ⟨s, some e⟩

end Latch

structure Sink where
  content : Array UInt8 := #[]
  limit : Option Nat := none
deriving DecidableEq, Repr

namespace Sink

def fitting (s : Sink) (t : Text) : Text :=
  match s.limit with
  | none => t
  | some n => t.take (n - s.content.size)

def fullReason : Text := "disk full"

/-- The device that writes what fits, and fails if that is not all of it. -/
def device : Device Sink := fun s t =>
  let kept := s.fitting t
  ({ s with content := s.content ++ kept.toArray },
    if kept.length = t.length then none else some ⟨kept.length, fullReason⟩)

end Sink

/-- The latch of a sink as one sees it from outside: the sink, and whether a write has failed. -/
structure Guard where
  sink : Sink
  failed : Bool := false
deriving DecidableEq, Repr

namespace Guard

def ofLatch (l : Latch Sink) : Guard := ⟨l.state, l.error.isSome⟩

def latch (g : Guard) : Latch Sink := ⟨g.sink, if g.failed then some Sink.fullReason else none⟩

def write (g : Guard) (t : Text) : Guard × Nat :=
  match g.latch.write Sink.device t with
  | (l, n) => (ofLatch l, n)

def writeAll (g : Guard) (ts : List Text) : Guard := ofLatch (g.latch.writeAll Sink.device ts)

end Guard

/-- A file system of any kind. What a call does may depend on all that was done before, and a call
that fails gives the reason. -/
structure FileSystem (σ : Type) where
  create : σ → Text → σ × Option Text
  file : Text → Device σ
  close : σ → Text → σ × Option Text

inductive FileCall where
  | create (name : Text) (fault : Option Text)
  | write (name text : Text) (fault : Option WriteFault)
  | close (name : Text) (fault : Option Text)
deriving DecidableEq, Repr

structure FileSession (σ : Type) where
  state : σ
  calls : Array FileCall := #[]

namespace FileSession

variable {σ : Type}

def create (fs : FileSystem σ) (s : FileSession σ) (name : Text) : FileSession σ × Option Text :=
  match fs.create s.state name with
  | (state, fault) => (⟨state, s.calls.push (.create name fault)⟩, fault)

/-- The file of a name, whose writes are calls of the session. -/
def file (fs : FileSystem σ) (name : Text) : Device (FileSession σ) := fun s t =>
  match fs.file name s.state t with
  | (state, fault) => (⟨state, s.calls.push (.write name t fault)⟩, fault)

def close (fs : FileSystem σ) (s : FileSession σ) (name : Text) : FileSession σ × Option Text :=
  match fs.close s.state name with
  | (state, fault) => (⟨state, s.calls.push (.close name fault)⟩, fault)

end FileSession
end BarrelAsm
