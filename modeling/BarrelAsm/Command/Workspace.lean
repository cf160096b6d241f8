import BarrelAsm.Output.Files

/-! A working directory: the files that a run of the command reads and writes. -/
namespace BarrelAsm.Command

/-- A place below the working directory: the names on the way to it. -/
abbrev Path := List Text

def Path.segments (name : Text) : List Text :=
  name.foldr
    (fun b parts =>
      match parts with
      | p :: ps => if b = 47 then [] :: p :: ps else (b :: p) :: ps
      | [] => [[b]])
    [[]]

/-- The place that a segment leads to: a dot stays, two dots go up. -/
def Path.enter (dir : Path) (segment : Text) : Path :=
  if segment.isEmpty ∨ segment = [46] then dir
  else if segment = [46, 46] ∧ dir.getLast?.any (· != [46, 46]) then dir.dropLast
  else dir ++ [segment]

def Path.isAbsolute (name : Text) : Bool := name.head? == some 47

/-- A file name without the segments that lead nowhere; an absolute name is kept. -/
def Path.clean (name : Text) : Text :=
  if isAbsolute name then name
  else
    match (segments name).foldl enter [] with
    | [] => [46]
    | p => Text.join [47] p

/-- The file that is always empty, whatever is written to it. -/
def nullDevice : Text := "/dev/null"

inductive FileFault where
  | missing | notDirectory | isDirectory | nameTooLong
deriving DecidableEq, Repr

def FileFault.message : FileFault → Text
  | missing => "no such file or directory"
  | notDirectory => "not a directory"
  | isDirectory => "is a directory"
  | nameTooLong => "file name too long"

structure FileError where
  /-- The action that failed: `open` or `read`. -/
  action : Text
  name : Text
  reason : Text
deriving DecidableEq, Repr

def FileError.message (e : FileError) : Text :=
  e.action ++ (" " : Text) ++ e.name ++ (": " : Text) ++ e.reason

def FileError.opening (name : Text) (f : FileFault) : FileError := ⟨"open", name, f.message⟩

def FileError.reading (name : Text) (f : FileFault) : FileError := ⟨"read", name, f.message⟩

/-- The files of a working directory. A directory exists if a file lies below it. -/
structure Workspace where
  files : List (Path × Text) := []
deriving DecidableEq, Repr

inductive Entry where
  | directory
  | file (content : Text)
deriving DecidableEq, Repr

namespace Workspace

def entry? (w : Workspace) (p : Path) : Option Entry :=
  if p.isEmpty ∨ w.files.any fun f => p.isPrefixOf f.1 && f.1 != p then some .directory
  else (w.files.lookup p).map .file

/-- Follow segments from a place on; every place that is left behind is a directory. -/
def walk (w : Workspace) (dir : Path) : List Text → Except FileFault Path
  | [] => .ok dir
  | s :: ss =>
    match w.entry? dir with
    | none => .error .missing
    | some (.file _) => .error .notDirectory
    | some .directory =>
      if 255 < s.length then .error .nameTooLong
      else if s = [46, 46] then w.walk dir.dropLast ss
      else w.walk (dir.enter s) ss

/-- The place of a file name; nothing but the null device lies outside of the workspace. -/
def locate (w : Workspace) (name : Text) : Except FileFault Path :=
  if 4096 ≤ name.length then .error .nameTooLong
  else if name.isEmpty ∨ Path.isAbsolute name then .error .missing
  else w.walk [] (Path.segments name)

def read (w : Workspace) (name : Text) : Except FileError Text :=
  if name = nullDevice then .ok []
  else
    match w.locate name with
    | .error f => .error (.opening name f)
    | .ok p =>
      match w.entry? p with
      | none => .error (.opening name .missing)
      | some .directory => .error (.reading name .isDirectory)
      | some (.file t) => .ok t

def createFault? (w : Workspace) (name : Text) : Option FileError :=
  if name = nullDevice then none
  else
    match w.locate (Path.clean name) with
    | .error f => some (.opening (Path.clean name) f)
    | .ok p =>
      match w.entry? p with
      | some .directory => some (.opening (Path.clean name) .isDirectory)
      | _ => none

def drive (w : Workspace) : Drive :=
  { createFault := fun name => (w.createFault? name).map (·.message) }

def set (w : Workspace) (p : Path) (content : Text) : Workspace :=
  if w.files.any (·.1 == p) then
    ⟨w.files.map fun f => if f.1 = p then (p, content) else f⟩
  else ⟨w.files ++ [(p, content)]⟩

def store (w : Workspace) (f : WrittenFile) : Workspace :=
  if f.name = nullDevice then w
  else
    match w.locate (Path.clean f.name) with
    | .ok p => w.set p f.content.toList
    | .error _ => w

def save (w : Workspace) : List OutputFile → Workspace × OutputReport
  | [] => (w, {})
  | f :: fs =>
    let r := w.drive.writeFiles [f]
    let w := r.files.foldl store w
    match r.error with
    | some _ => (w, r)
    | none =>
      let (w, rest) := w.save fs
      (w, ⟨r.begun ++ rest.begun, r.files ++ rest.files, rest.error⟩)

def ofFiles (files : List (Text × Text)) : Workspace :=
  files.foldl (fun w f => w.set ((Path.segments f.1).foldl Path.enter []) f.2) {}

def changes (before after : Workspace) : List (Text × Text) :=
  (after.files.filter fun f => before.files.lookup f.1 != some f.2).map fun f =>
    (Text.join [47] f.1, f.2)

end Workspace
end BarrelAsm.Command
