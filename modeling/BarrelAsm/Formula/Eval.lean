import BarrelAsm.Formula.Operator
import BarrelAsm.Symbol

/-! Evaluation of formulas: the names that they may use, functions, and statements. -/
namespace BarrelAsm.Formula

/-! Functions. -/

/-- The integer that a text denotes in a base; base 0 takes the base from the text. -/
def intOfText? (base : Nat) (text : Text) : Option Int :=
  let negative := text.head? = some 45
  let t := if negative ∨ text.head? = some 43 then text.drop 1 else text
  let marked : Option Nat :=
    if t.head? = some 48 ∧ t.length > 2 then
      match (t[1]? : Option UInt8) with
      | some 111 | some 79 => some 8
      | some 120 | some 88 => some 16
      | some 98 | some 66 => some 2
      | _ => none
    else none
  let value : Option Nat :=
    match marked with
    | some m =>
      if base = 0 ∨ base = m then Numeral.ofDigits? m (t.drop 2) else Numeral.ofDigits? base t
    | none =>
      if base ≠ 0 then Numeral.ofDigits? base t
      else if t.length > 1 ∧ t.head? = some 48 then
        if t.all (· == 48) then some 0 else none
      else Numeral.ofDigits? 10 t
  value.map fun n => if negative then -n else n

def callInt? (x : Value) (base : Option Value) : Option Value :=
  match x, base with
  | .string t, none => (intOfText? 10 t).map .int
  | .string t, some (.int b) =>
    if b = 0 ∨ (2 ≤ b ∧ b ≤ 36) then (intOfText? b.toNat t).map .int else none
  | .bool b, none => some (.int (if b then 1 else 0))
  | .int i, none => some (.int i)
  | .float f, none => (truncate? f).map .int
  | _, _ => none

/-- The first of the values whose key no other key passes in this comparison. -/
def extremum? (op : CompareOp) (values keys : List Value) : Option Value :=
  match values.zip keys with
  | [] => none
  | first :: others => do
    let best ← others.foldlM
      (fun best x => do return if ← compare? op x.2 best.2 then x else best) first
    return best.1

def choices? : List Value → Option (List Value)
  | [v] => v.items?
  | vs => some vs

def invoke? (name : Text) (args : List Value) : Option Value :=
  if name = ("int" : Text) then
    match args with
    | [x] => callInt? x none
    | [x, b] => callInt? x (some b)
    | _ => none
  else if name = ("abs" : Text) then
    match args with
    | [.int i] => some (.int i.natAbs)
    | [.float x] => some (.float x.abs)
    | _ => none
  else if name = ("min" : Text) then (choices? args).bind fun vs => extremum? .lt vs vs
  else if name = ("max" : Text) then (choices? args).bind fun vs => extremum? .gt vs vs
  else if name = ("len" : Text) then
    match args with
    | [.string t] => some (.int t.length)
    | [v] => v.items?.map fun vs => .int vs.length
    | _ => none
  else if name = ("bool" : Text) then
    match args with
    | [] => some (.bool false)
    | [x] => some (.bool x.truth)
    | _ => none
  else none

def call? (f : Value) (args : List Value) (named : List (Text × Value)) : Option Value :=
  match f with
  | .builtin name =>
    match named with
    | [] => invoke? name args
    | [(n, v)] =>
      if name = ("int" : Text) then
        match args with
        | [] => if n = ("x" : Text) then callInt? v none else none
        | [x] => if n = ("base" : Text) then callInt? x (some v) else none
        | _ => none
      else if n = ("key" : Text) ∧ (name = ("min" : Text) ∨ name = ("max" : Text)) then do
        let .builtin key := v | none
        let values ← choices? args
        let keys ← values.mapM fun x => invoke? key [x]
        extremum? (if name = ("min" : Text) then .lt else .gt) values keys
      else none
    | [(m, v), (n, w)] =>
      if name = ("int" : Text) ∧ args.isEmpty then
        if m = ("x" : Text) ∧ n = ("base" : Text) then callInt? v (some w)
        else if m = ("base" : Text) ∧ n = ("x" : Text) then callInt? w (some v)
        else none
      else none
    | _ => none
  | _ => none

/-- The functions that are there from the start; some of them are known by name only. -/
def builtins : List Text := List.map Text.ofString
  ["abs", "all", "any", "bool", "bytes", "chr", "dict", "dir", "enumerate", "fail", "float",
    "getattr", "hasattr", "hash", "int", "len", "list", "max", "min", "ord", "print", "range",
    "repr", "reversed", "sorted", "str", "tuple", "type", "zip"]

def universe? (name : Text) : Option Value :=
  if name = ("None" : Text) then some .nothing
  else if name = ("True" : Text) then some (.bool true)
  else if name = ("False" : Text) then some (.bool false)
  else if builtins.contains name then some (.builtin name)
  else none

/-! Expressions. -/

/-- A call gives fewer than 256 arguments of either kind, none of them by place behind one by name,
and no name twice. -/
def validArguments (names : List (Option Text)) : Bool :=
  let given := names.filterMap id
  let places := names.takeWhile Option.isNone
  places.length + given.length == names.length && places.length < 256 && given.length < 256 &&
    decide given.Nodup

mutual

def Expr.resolves (known : Text → Bool) : Expr → Bool
  | .name n => known n
  | .tuple xs | .list xs | .dict xs => Expr.resolveAll known xs
  | .negation x | .unary _ x => x.resolves known
  | .binary _ x y => x.resolves known && y.resolves known
  | .choice c x y => c.resolves known && x.resolves known && y.resolves known
  | .call f args names =>
    f.resolves known && Expr.resolveAll known args && validArguments names
  | .int _ | .float _ | .string _ => true

def Expr.resolveAll (known : Text → Bool) : List Expr → Bool
  | [] => true
  | x :: xs => x.resolves known && Expr.resolveAll known xs

end

mutual

/-- The value of an expression; operands that do not count are not evaluated. -/
def Expr.eval (env : Text → Option Value) : Expr → Option Value
  | .int v => some (.int v)
  | .float f => some (.float f)
  | .string t => some (.string t)
  | .name n => env n
  | .tuple xs => (Expr.evalAll env xs).map .tuple
  | .list xs => (Expr.evalAll env xs).map .list
  | .dict xs =>
    (Expr.evalAll env xs).bind fun vs => (dictOf? vs).map fun (ks, vs) => .dict ks vs
  | .negation x => (x.eval env).map fun v => .bool !v.truth
  | .unary op x => (x.eval env).bind (unary? op)
  | .binary .either x y => (x.eval env).bind fun v => if v.truth then some v else y.eval env
  | .binary .both x y => (x.eval env).bind fun v => if v.truth then y.eval env else some v
  | .binary (.compare op) x y =>
    (x.eval env).bind fun v => (y.eval env).bind fun w => (compare? op v w).map .bool
  | .binary (.arith op) x y => (x.eval env).bind fun v => (y.eval env).bind fun w => arith? op v w
  | .choice c x y => (c.eval env).bind fun v => if v.truth then x.eval env else y.eval env
  | .call f args names =>
    (f.eval env).bind fun g => (Expr.evalAll env args).bind fun vs =>
      let places := names.takeWhile Option.isNone
      call? g (vs.take places.length) ((names.filterMap id).zip (vs.drop places.length))

def Expr.evalAll (env : Text → Option Value) : List Expr → Option (List Value)
  | [] => some []
  | x :: xs => (x.eval env).bind fun v => (Expr.evalAll env xs).map (v :: ·)

end

/-! Statements. -/

inductive FormulaError where
  | malformed
  /-- A name that nothing stands for, or that is assigned twice. -/
  | unresolved
  | failed
  | notInteger (text : Text)
deriving DecidableEq, Repr

def FormulaError.message : FormulaError → Text
  | malformed => "malformed formula"
  | unresolved => "unresolved name"
  | failed => "formula without a value"
  | notInteger t => Text.quote t ++ (" is not an integer expression" : Text)

mutual

/-- The names that an assignment sets; `none` if its target is no name and holds more than names. -/
def Expr.targets? : Expr → Option (List Text)
  | .name n => some [n]
  | .tuple xs | .list xs => Expr.allTargets? xs
  | _ => none

def Expr.allTargets? : List Expr → Option (List Text)
  | [] => some []
  | x :: xs => x.targets?.bind fun ns => (Expr.allTargets? xs).map (ns ++ ·)

end

def Statement.targets? : Statement → Option (List Text)
  | .assign x _ => x.targets?
  | .augment (.name n) _ => some [n]
  | .augment _ _ => none
  | .eval _ => some []
  | .pass => some []
  | .misplaced => none

def Statement.resolves (known : Text → Bool) : Statement → Bool
  | .assign _ x | .augment _ x | .eval x => x.resolves known
  | .pass | .misplaced => true

def resolves (predeclared : Text → Bool) (ss : List Statement) : Bool :=
  match ss.mapM Statement.targets? with
  | none => false
  | some targets =>
    let globals := targets.flatten
    let known (n : Text) : Bool := globals.contains n || predeclared n || (universe? n).isSome
    decide globals.Nodup && ss.all (·.resolves known)

mutual

/-- The values that the names of a target get: a sequence is taken apart item by item. -/
def Expr.unpack? : Expr → Value → Option (List (Text × Value))
  | .name n, v => some [(n, v)]
  | .tuple xs, v | .list xs, v => v.items?.bind fun vs => Expr.unpackAll? xs vs
  | _, _ => none

def Expr.unpackAll? : List Expr → List Value → Option (List (Text × Value))
  | [], [] => some []
  | x :: xs, v :: vs => (x.unpack? v).bind fun a => (Expr.unpackAll? xs vs).map (a ++ ·)
  | _, _ => none

end

/-- Run statements; a global name has no value until it is assigned. -/
def execute? (globals : List Text) (outer : Text → Option Value) :
    List (Text × Value) → List Statement → Option (List (Text × Value))
  | vars, [] => some vars
  | vars, s :: ss =>
    let env (n : Text) : Option Value := if globals.contains n then vars.lookup n else outer n
    match s with
    | .assign x y =>
      ((y.eval env).bind x.unpack?).bind fun set => execute? globals outer (vars ++ set) ss
    | .eval x => (x.eval env).bind fun _ => execute? globals outer vars ss
    | .pass => execute? globals outer vars ss
    | _ => none

def run (constants : Constants) (text : Text) : Except FormulaError (List (Text × Value)) :=
  match (lexemes? 0 true text).bind statements? with
  | none => .error .malformed
  | some ss =>
    if resolves (fun n => (constants.get? n).isSome) ss then
      let globals := (ss.filterMap Statement.targets?).flatten
      let outer (n : Text) : Option Value := ((constants.get? n).map .int).or (universe? n)
      match execute? globals outer [] ss with
      | some vars => .ok vars
      | none => .error .failed
    else .error .unresolved

def interpret : Interpreter FormulaError := fun constants text =>
  (run constants text).map fun vars name =>
    match vars.lookup name with
    | some (.int i) => some i
    | _ => none

def FormulaError.ofDefinition : DefinitionError FormulaError → FormulaError
  | .badName name => .notInteger name
  | .formula _ error => error
  | .notInteger formula => .notInteger formula

end BarrelAsm.Formula

namespace BarrelAsm.Constants

def define (c : Constants) (name formula : Text) : Except Formula.FormulaError Constants :=
  (c.defineBy Formula.interpret name formula).mapError .ofDefinition

end BarrelAsm.Constants
