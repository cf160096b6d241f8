import BarrelAsm.Output.Device
import BarrelAsm.Program

/-! The output files of a program. -/
namespace BarrelAsm

/-- The names of the output files; a file with an empty name is not written. -/
structure OutputNames where
  instructions : Text := []
  data : Text := []
  registers : Text := []
  processes : Text := []
  sequence : Text := []
  config : Text := []
  listing : Text := []
deriving DecidableEq, Repr

/-- The usual names; the listing is named after the source. -/
def OutputNames.standard (source : Text) : OutputNames where
  instructions := "inst_data"
  data := "dta_data"
  registers := "reg_data"
  processes := "pc_data"
  sequence := "seq_data"
  config := "config.v"
  listing := source ++ (".lst" : Text)

structure OutputFile where
  name : Text
  chunks : List Text
deriving DecidableEq, Repr

namespace OutputFile

def lineChunks (lines : List Text) : List Text := lines.map (· ++ [10])

def configChunks (processCount : Int) : List Text :=
  ["// These are assembler maintained constants.\n", "// Do not change manually.\n", "\n",
    ("parameter process_count = " : Text) ++ Text.ofInt processCount ++ (";" : Text)]

end OutputFile

open OutputFile in
/-- The files of a program, in the order in which they are written. -/
def OutputNames.plan (names : OutputNames) (p : Program) : List OutputFile :=
  [⟨names.instructions, lineChunks p.instructionLines⟩,
    ⟨names.data, lineChunks p.dataLines⟩,
    ⟨names.registers, lineChunks p.registerLines⟩,
    ⟨names.processes, lineChunks p.startLines⟩,
    ⟨names.sequence, lineChunks p.sequenceLines⟩,
    ⟨names.listing, lineChunks p.listing.lines⟩,
    ⟨names.config, configChunks p.processCount⟩].filter (!·.name.isEmpty)

structure WrittenFile where
  name : Text
  content : Array UInt8
  closes : Nat := 0
deriving DecidableEq, Repr

namespace WrittenFile

def close (f : WrittenFile) : WrittenFile := { f with closes := f.closes + 1 }

def append (f : WrittenFile) (t : Text) : WrittenFile :=
  { f with content := f.content ++ t.toArray }

def modify (name : Text) (change : WrittenFile → WrittenFile) : List WrittenFile → List WrittenFile
  | [] => []
  | f :: fs => if f.name = name then change f :: fs else f :: modify name change fs

/-- The files after a call, the last one that was created first. -/
def after (fs : List WrittenFile) : FileCall → List WrittenFile
  | .create name none => ⟨name, #[], 0⟩ :: fs
  | .create _ (some _) => fs
  | .write name t fault => modify name (·.append (WriteFault.part fault t)) fs
  | .close name _ => modify name close fs

end WrittenFile

inductive OutputFault where
  | create (reason : Text)
  | write (reason : Text)
  | close (reason : Text)
deriving DecidableEq, Repr

structure OutputError where
  name : Text
  fault : OutputFault
deriving DecidableEq, Repr

structure OutputReport where
  begun : List Text := []
  files : List WrittenFile := []
  error : Option OutputError := none
deriving DecidableEq, Repr

def OutputReport.announcement (name : Text) : Text := ("output: " : Text) ++ name

def FileCall.begun? : FileCall → Option Text
  | .create name _ => some name
  | _ => none

def FileSession.report {σ : Type} (s : FileSession σ) (error : Option OutputError) :
    OutputReport where
  begun := s.calls.toList.filterMap FileCall.begun?
  files := (s.calls.foldl WrittenFile.after []).reverse
  error := error

namespace FileSystem

variable {σ : Type}

/-- Write a file, which is closed also after a write that failed. -/
def writeFile (fs : FileSystem σ) (s : FileSession σ) (f : OutputFile) :
    FileSession σ × Option OutputFault :=
  match s.create fs f.name with
  | (s, some reason) => (s, some (.create reason))
  | (s, none) =>
    let l := Latch.writeUntilFault (FileSession.file fs f.name) ⟨s, none⟩ f.chunks
    match l.state.close fs f.name with
    | (s, fault) => (s, (l.error.map .write).or (fault.map .close))

def writeFiles (fs : FileSystem σ) (s : FileSession σ) :
    List OutputFile → FileSession σ × Option OutputError
  | [] => (s, none)
  | f :: rest =>
    match fs.writeFile s f with
    | (s, some fault) => (s, some ⟨f.name, fault⟩)
    | (s, none) => fs.writeFiles s rest

end FileSystem

/-- Where files are written: creating or closing a file may fail, and it may have a limit. -/
structure Drive where
  createFault : Text → Option Text := fun _ => none
  limit : Text → Option Nat := fun _ => none
  closeFault : Text → Option Text := fun _ => none

namespace Drive

/-- The drive as a file system, whose state is the file that is being written. -/
def fileSystem (d : Drive) : FileSystem Sink where
  create s name :=
    match d.createFault name with
    | some reason => (s, some reason)
    | none => ({ limit := d.limit name }, none)
  file _ := Sink.device
  close s name := (s, d.closeFault name)

def writeFiles (d : Drive) (fs : List OutputFile) : OutputReport :=
  match d.fileSystem.writeFiles ⟨{}, #[]⟩ fs with
  | (s, error) => s.report error

end Drive
end BarrelAsm
