import BarrelAsm.Process.Registry
import BarrelAsm.Token.Cursor
import BarrelAsm.Token.Split

/-! Source lines as statements. -/
namespace BarrelAsm

/-- The labels that a line starts with, and the tokens of the statement behind them. -/
structure Statement where
  labels : List Text
  body : List Token
deriving DecidableEq, Repr

namespace Statement

/-- The part of a line before its comment, without blanks around it. -/
def code (text : Text) : Text := Text.trim (Text.before 59 text)

def ofTokens (ts : List Token) : Statement :=
  ⟨(ts.takeWhile (·.kind = .label)).map (·.text), ts.dropWhile (·.kind = .label)⟩

def ofLine? (text : Text) : Option Statement :=
  let c := code text
  if c.isEmpty then none else some (ofTokens (Token.tokenize c))

def kinds : List TokenKind :=
  [.regDecl, .constDecl, .dataDecl, .process, .endProcess, .label, .instruction, .pseudo]

def unexpected (t : Token) : Fault :=
  if t.kind = .unknown then .unrecognized t.text else .unexpected kinds (some t)

def processName : Reader Text := do
  let name ← (fun ts =>
    match ts with
    | [] => (.error (.unexpected [.identifier] none), [])
    | t :: rest =>
      if (t.kind = .identifier ∨ t.kind = .unknown) ∧ ProcessName.isValid t.text then
        (.ok t.text, rest)
      else (.error (.unexpected [.identifier] (some t)), rest) : Reader Text)
  Reader.finish
  return name

end Statement

end BarrelAsm
