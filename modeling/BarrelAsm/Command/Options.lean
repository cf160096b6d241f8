import BarrelAsm.Output.Files
import BarrelAsm.Text.Quoted

/-! The options of the command line. -/
namespace BarrelAsm.Command

inductive ValueFlag where
  | config | data | define | listing | processes | program | registers | sequence
deriving DecidableEq, Repr

inductive Switch where
  | help | quiet | symbols | verbose | version
deriving DecidableEq, Repr

inductive Flag where
  | value (flag : ValueFlag)
  | switch (flag : Switch)
deriving DecidableEq, Repr

namespace Flag

def name : Flag → Text
  | value .config => "config"
  | value .data => "data"
  | value .define => "define"
  | value .listing => "listing"
  | value .processes => "processes"
  | value .program => "program"
  | value .registers => "registers"
  | value .sequence => "sequence"
  | switch .help => "help"
  | switch .quiet => "quiet"
  | switch .symbols => "symbols"
  | switch .verbose => "verbose"
  | switch .version => "version"

def letter? : Flag → Option UInt8
  | value .config => some 99
  | value .data => some 100
  | value .define => some 68
  | value .listing => some 111
  | value .processes => some 108
  | value .program => some 112
  | value .registers => some 114
  | value .sequence => some 115
  | switch .help => some 104
  | switch .quiet => some 113
  | switch .symbols => none
  | switch .verbose => some 118
  | switch .version => none

def all : List Flag :=
  [value .config, value .data, value .define, value .listing, value .processes, value .program,
    value .registers, value .sequence, switch .help, switch .quiet, switch .symbols,
    switch .verbose, switch .version]

def named? (t : Text) : Option Flag := all.find? (·.name == t)

def lettered? (b : UInt8) : Option Flag := all.find? (·.letter? == some b)

def isSwitch : Flag → Bool
  | switch _ => true
  | value _ => false

/-- How messages call the option: `-q, --quiet`. -/
def label (f : Flag) : Text :=
  match f.letter? with
  | some b => 45 :: b :: (", --" : Text) ++ f.name
  | none => ("--" : Text) ++ f.name

end Flag

inductive UsageError where
  | badFlag (arg : Text)
  | unknownFlag (name : Text)
  | unknownLetter (letter : UInt8) (letters : Text)
  | missingValue (arg : Text)
  | missingLetterValue (letter : UInt8) (letters : Text)
  | notBoolean (flag : Flag) (value : Text)
  | argumentCount (n : Nat)
deriving DecidableEq, Repr

def UsageError.message : UsageError → Text
  | badFlag a => ("bad flag syntax: " : Text) ++ a
  | unknownFlag n => ("unknown flag: --" : Text) ++ n
  | unknownLetter b ls =>
    ("unknown shorthand flag: " : Text) ++ Text.quotedByte b ++ (" in -" : Text) ++ ls
  | missingValue a => ("flag needs an argument: " : Text) ++ a
  | missingLetterValue b ls =>
    ("flag needs an argument: " : Text) ++ Text.quotedByte b ++ (" in -" : Text) ++ ls
  | notBoolean f v =>
    ("invalid argument " : Text) ++ Text.doubleQuoted v ++ (" for " : Text) ++
      Text.doubleQuoted f.label ++ (" flag: strconv.ParseBool: parsing " : Text) ++
      Text.doubleQuoted v ++ (": invalid syntax" : Text)
  | argumentCount n => ("accepts 1 arg(s), received " : Text) ++ Text.ofNat n

structure Options where
  /-- The output files; an empty listing name stands for the usual one. -/
  names : OutputNames := { OutputNames.standard [] with listing := [] }
  defines : List Text := []
  help : Bool := false
  quiet : Bool := false
  symbols : Bool := false
  verbose : Bool := false
  version : Bool := false
  arguments : List Text := []
deriving DecidableEq, Repr

namespace Options

def boolean? (t : Text) : Option Bool :=
  if ["1", "t", "T", "TRUE", "true", "True"].any fun s => Text.ofString s == t then some true
  else if ["0", "f", "F", "FALSE", "false", "False"].any fun s => Text.ofString s == t then
    some false
  else none

def setValue (o : Options) (v : Text) : ValueFlag → Options
  | .config => { o with names.config := v }
  | .data => { o with names.data := v }
  | .define => { o with defines := o.defines ++ [v] }
  | .listing => { o with names.listing := v }
  | .processes => { o with names.processes := v }
  | .program => { o with names.instructions := v }
  | .registers => { o with names.registers := v }
  | .sequence => { o with names.sequence := v }

def setSwitch (o : Options) (b : Bool) : Switch → Options
  | .help => { o with help := b }
  | .quiet => { o with quiet := b }
  | .symbols => { o with symbols := b }
  | .verbose => { o with verbose := b }
  | .version => { o with version := b }

def set (o : Options) (f : Flag) (v : Text) : Except UsageError Options :=
  match f with
  | .value vf => .ok (o.setValue v vf)
  | .switch s =>
    match boolean? v with
    | some b => .ok (o.setSwitch b s)
    | none => .error (.notBoolean f v)

/-- Read the letters of an argument behind its dash; the flag says that the last option took the
next argument as its value. -/
def letters (o : Options) (next : Option Text) (ls : Text) : Except UsageError (Options × Bool) :=
  match ls with
  | [] => .ok (o, false)
  | b :: bs =>
    if ("test." : Text).isPrefixOf (b :: bs) then .ok (o, false)
    else
      match Flag.lettered? b with
      | none => .error (.unknownLetter b (b :: bs))
      | some f =>
        match bs with
        | 61 :: v :: vs => do return (← o.set f (v :: vs), false)
        | bs =>
          if f.isSwitch then do
            let o ← o.set f "true"
            o.letters next bs
          else if bs.isEmpty then
            match next with
            | some v => do return (← o.set f v, true)
            | none => .error (.missingLetterValue b [b])
          else do return (← o.set f bs, false)

/-- Read an argument with two dashes; the flag is as for `letters`. -/
def long (o : Options) (next : Option Text) (arg : Text) : Except UsageError (Options × Bool) :=
  let body := arg.drop 2
  if body.head? = some 45 ∨ body.head? = some 61 then .error (.badFlag arg)
  else
    match Flag.named? (Text.before 61 body) with
    | none => .error (.unknownFlag (Text.before 61 body))
    | some f =>
      match Text.after? 61 body, next with
      | some v, _ => do return (← o.set f v, false)
      | none, next =>
        if f.isSwitch then do return (← o.set f "true", false)
        else
          match next with
          | some v => do return (← o.set f v, true)
          | none => .error (.missingValue arg)

/-- Read the arguments; two dashes alone end the options, and one dash alone is no option. -/
def parse (o : Options) (args : List Text) : Except UsageError Options :=
  match args with
  | [] => .ok o
  | a :: rest =>
    let keep : Options := { o with arguments := o.arguments ++ [a] }
    match a with
    | 45 :: 45 :: [] => .ok { o with arguments := o.arguments ++ rest }
    | 45 :: b :: bs =>
      let read := if b = 45 then o.long rest.head? a else o.letters rest.head? (b :: bs)
      match read with
      | .error e => .error e
      | .ok (o, true) => o.parse (rest.drop 1)
      | .ok (o, false) => o.parse rest
    | _ => keep.parse rest
termination_by args.length
decreasing_by all_goals simp only [List.length_drop, List.length_cons]; omega

end Options
end BarrelAsm.Command
