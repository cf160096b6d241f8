import BarrelAsm.Assembler
import BarrelAsm.Command.Options
import BarrelAsm.Command.Workspace
import BarrelAsm.Formula.Eval

/-!
A run of the command in three steps: the command line gives a job, the job and its source text give
a build, and the build with what became of its files gives what the command prints.
-/
namespace BarrelAsm

def OutputFault.message : OutputFault → Text
  | create reason => reason
  | write reason => ("write failed: " : Text) ++ reason
  | close reason => reason

def OutputError.message (e : OutputError) : Text := e.name ++ (": " : Text) ++ e.fault.message

def Guard.failureMessage : Text := OutputFault.message (.write Sink.fullReason)

namespace Command

structure Transcript where
  exit : Nat := 0
  stdout : Text := []
  stderr : Text := []
deriving DecidableEq, Repr

/-- A line of the log, which ends with exactly one line feed of its own. -/
def logLine (t : Text) : Text := if t.getLast? = some 10 then t else t ++ [10]

inductive RunError where
  | badDefinition (arg : Text)
  | formula (error : Formula.FormulaError)
  | file (error : FileError)
  | source (error : Diagnostic)
  | output (error : OutputError)
deriving DecidableEq, Repr

def RunError.message : RunError → Text
  | badDefinition arg => ("-D " : Text) ++ arg ++ (": expected NAME=EXPR" : Text)
  | formula e => e.message
  | file e => e.message
  | source e => e.message
  | output e => e.message

def Transcript.failure (source log : Text) (e : RunError) : Transcript where
  exit := 1
  stderr := log ++ logLine (source ++ (": " : Text) ++ e.message)

def versionLine : Text := "avasm version 1.0.0\n"

def usage : Text :=
  (List.map Text.ofString
    ["Usage:",
      "  avasm sourceFile [flags]",
      "",
      "Flags:",
      "  -c, --config string        configuration file (default \"config.v\")",
      "  -d, --data string          data table file (default \"dta_data\")",
      "  -D, --define stringArray   predefine a constant, as NAME=EXPR",
      "  -h, --help                 help for avasm",
      "  -o, --listing string       listing file (default sourceFile.lst)",
      "  -l, --processes string     process start address file (default \"pc_data\")",
      "  -p, --program string       instruction file (default \"inst_data\")",
      "  -q, --quiet                do not print the summary",
      "  -r, --registers string     register file (default \"reg_data\")",
      "  -s, --sequence string      sequence table file (default \"seq_data\")",
      "      --symbols              dump the symbol table to stderr",
      "  -v, --verbose              verbose mode",
      "      --version              version for avasm"]).flatMap (· ++ [10])

def description : Text :=
  (List.map Text.ofString
    ["Avasm assembles a program for the Avalanche multi-process processor.",
      "",
      "The program, data, register, process start and sequence tables are",
      "written as hex text files, one value per line, along with a config.v",
      "file holding the process count and an assembly listing.",
      ""]).flatMap (· ++ [10])

def Transcript.misuse (e : UsageError) : Transcript where
  exit := 1
  stderr := ("Error: " : Text) ++ e.message ++ [10] ++ usage ++ [10]

structure Job where
  source : Text
  names : OutputNames
  constants : Constants := {}
  quiet : Bool := false
  symbols : Bool := false
  verbose : Bool := false
deriving DecidableEq, Repr

/-- The name and the formula of a definition; a name alone stands for 1. -/
def definition (arg : Text) : Except RunError (Text × Text) :=
  let name := Text.trim (Text.before 61 arg)
  let formula := (Text.after? 61 arg).getD "1"
  if name.isEmpty ∨ (Text.trim formula).isEmpty then .error (.badDefinition arg)
  else .ok (name, formula)

def define (c : Constants) (arg : Text) : Except RunError Constants := do
  let (name, formula) ← definition arg
  (c.define name formula).mapError .formula

/-- The job of a command line, or what is printed instead. -/
def Job.ofArguments (args : List Text) : Except Transcript Job :=
  match Options.parse {} args with
  | .error e => .error (.misuse e)
  | .ok o =>
    if o.help then .error { stdout := description ++ usage }
    else if o.version then .error { stdout := versionLine }
    else
      match o.arguments with
      | [source] =>
        match o.defines.foldlM define {} with
        | .error e => .error (.failure source [] e)
        | .ok constants =>
          let listing := if o.names.listing.isEmpty then
            (OutputNames.standard source).listing else o.names.listing
          .ok ⟨source, { o.names with listing }, constants, o.quiet, o.symbols, o.verbose⟩
      | arguments => .error (.misuse (.argumentCount arguments.length))

/-! The dump of the symbols. -/

def coloured (codes : List Nat) (t : Text) : Text :=
  codes.flatMap (fun c => ("\x1b[" : Text) ++ Text.ofNat c ++ ("m" : Text)) ++ t ++
    ("\x1b[0m" : Text)

def fieldLine (name : Text) (i : Int) : Text :=
  ("  " : Text) ++ coloured [33] name ++ Text.padRight 32 (10 - name.length) [58] ++
    coloured [34, 1] (Text.ofInt i) ++ (",\n" : Text)

def symbolDump (name : Text) (s : Symbol) : Text :=
  coloured [31, 1] [34] ++ coloured [31] name ++ coloured [31, 1] [34] ++ (" asm." : Text) ++
    coloured [32] "Symbol" ++ ("\x7b\n" : Text) ++ fieldLine "Kind" s.kind.code ++
    fieldLine "Value" s.value ++ fieldLine "Size" s.size ++ fieldLine "Location" s.location ++
    ("\x7d\n" : Text)

structure Build where
  job : Job
  program : Program
  log : Text := []

def Build.files (b : Build) : List OutputFile := b.job.names.plan b.program

def Job.build (j : Job) (text : Text) : Except Transcript Build :=
  let (as, report) := Assembler.assemble { constants := j.constants } text
  let log := if j.verbose then report.events.toList.flatMap (logLine ·.message) else []
  match report.result with
  | .error e => .error (.failure j.source log (.source e))
  | .ok program =>
    let dump := if j.symbols then as.symbols.sorted.flatMap fun (n, s) => symbolDump n s else []
    .ok ⟨j, program, log ++ dump⟩

/-- The transcript of a run whose files were written as reported. -/
def Build.finish (b : Build) (r : OutputReport) : Transcript :=
  let announced := r.begun.flatMap fun n => logLine (OutputReport.announcement n)
  let log := b.log ++ if b.job.verbose then announced else []
  match r.error with
  | some e => .failure b.job.source log (.output e)
  | none =>
    { stdout := if b.job.quiet then [] else b.program.summary ++ [10]
      stderr := log }

def run (w : Workspace) (args : List Text) : Workspace × Transcript :=
  match Job.ofArguments args with
  | .error t => (w, t)
  | .ok j =>
    match w.read j.source with
    | .error e => (w, .failure j.source [] (.file e))
    | .ok text =>
      match j.build text with
      | .error t => (w, t)
      | .ok b =>
        let (w, report) := w.save b.files
        (w, b.finish report)

end Command
end BarrelAsm
