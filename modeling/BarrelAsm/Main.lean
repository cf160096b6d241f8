import BarrelAsm.Command.Run

/-! The command line: reading the source, writing the files and printing. -/
namespace BarrelAsm.Command

def bytesOf (t : Text) : ByteArray := ⟨t.toArray⟩

def fileNameOf (t : Text) : String := (String.fromUTF8? (bytesOf t)).getD ""

def failureReason : IO.Error → Text
  | .noFileOrDirectory .. => FileFault.missing.message
  | .inappropriateType .. => FileFault.isDirectory.message
  | .noSuchThing .. => FileFault.missing.message
  | .permissionDenied .. => "permission denied"
  | e => toString e

/-- Write files up to the first that fails. -/
def writeFiles : List OutputFile → IO OutputReport
  | [] => return {}
  | f :: fs => do
    let path := Path.clean f.name
    let content := f.chunks.flatten
    try
      IO.FS.writeBinFile (fileNameOf path) (bytesOf content)
      let rest ← writeFiles fs
      return { rest with
        begun := f.name :: rest.begun
        files := ⟨f.name, content.toArray, 1⟩ :: rest.files }
    catch e =>
      let fault : OutputFault := .create (FileError.mk "open" path (failureReason e)).message
      return ⟨[f.name], [], some ⟨f.name, fault⟩⟩

def runHere (args : List Text) : IO Transcript := do
  match Job.ofArguments args with
  | .error t => return t
  | .ok j =>
    try
      let source ← IO.FS.readBinFile (fileNameOf j.source)
      match j.build source.toList with
      | .error t => return t
      | .ok b => return b.finish (← writeFiles b.files)
    catch e => return .failure j.source [] (.file ⟨"open", j.source, failureReason e⟩)

end BarrelAsm.Command

open BarrelAsm Command in
def main (args : List String) : IO UInt32 := do
  let t ← runHere (args.map Text.ofString)
  (← IO.getStdout).write (bytesOf t.stdout)
  (← IO.getStderr).write (bytesOf t.stderr)
  return t.exit.toUInt32
