import BarrelAsm.Fault

/-! Symbols and the table of their qualified names, and constants that are defined ahead of an
assembly. -/
namespace BarrelAsm

/-- What a symbol names; a kind that is none of these is known by its number only. -/
inductive SymbolKind where
  | register
  | data
  | const
  | label
  | other (code : Int)
deriving DecidableEq, Repr

namespace SymbolKind

def ofCode : Int → SymbolKind
  | 0 => register
  | 1 => data
  | 2 => const
  | 3 => label
  | code => other code

def code : SymbolKind → Int
  | register => 0
  | data => 1
  | const => 2
  | label => 3
  | other code => code

def name : SymbolKind → Text
  | register => "register"
  | data => "data"
  | const => "const"
  | label => "label"
  | other code => ("SymbolKind(" : Text) ++ Text.ofInt code ++ (")" : Text)

end SymbolKind

structure Symbol where
  kind : SymbolKind
  /-- The initial value of a register or data item, or the value of a constant. -/
  value : Int
  size : Int
  /-- A register number, a data address or a program address. -/
  location : Int
deriving DecidableEq, Repr

/-- Symbols by qualified name, in the order in which they were declared. -/
structure SymbolTable where
  entries : List (Text × Symbol) := []
deriving DecidableEq, Repr

namespace SymbolTable

def size (t : SymbolTable) : Nat := t.entries.length

def get? (t : SymbolTable) (name : Text) : Option Symbol := t.entries.lookup name

def insert (t : SymbolTable) (name : Text) (sym : Symbol) : Except Fault SymbolTable :=
  if (t.get? name).isSome then .error (.duplicateSymbol name)
  else .ok ⟨t.entries ++ [(name, sym)]⟩

/-- Find a name in a scope, else in the global scope. -/
def lookup (t : SymbolTable) (scope name : Text) : Except Fault Symbol :=
  match (t.get? (scope ++ name)).or (t.get? name) with
  | some sym => .ok sym
  | none => .error (.undeclared name)

def sorted (t : SymbolTable) : List (Text × Symbol) :=
  t.entries.mergeSort fun a b => decide (a.1 ≤ b.1)

end SymbolTable

/-- Values by name, in the order in which the names were first defined. -/
structure Constants where
  entries : List (Text × Int)
  distinct : (entries.map Prod.fst).Nodup
deriving DecidableEq, Repr

instance : EmptyCollection Constants := ⟨⟨[], List.nodup_nil⟩⟩

namespace Constants

def get? (c : Constants) (name : Text) : Option Int := c.entries.lookup name

theorem get?_eq_none_iff {c : Constants} {name : Text} :
    c.get? name = none ↔ name ∉ c.entries.map Prod.fst := by
  unfold get?
  rw [List.lookup_eq_none_iff, List.mem_map]
  constructor
  · rintro h ⟨e, he, rfl⟩
    simpa using h e he
  · intro h e he
    simpa using fun heq : name = e.1 => h ⟨e, he, heq.symm⟩

theorem map_fst_replace (es : List (Text × Int)) (name : Text) (value : Int) :
    (es.map fun e => if e.1 = name then (name, value) else e).map Prod.fst = es.map Prod.fst := by
  rw [List.map_map]
  refine List.map_congr_left fun e _ => ?_
  rw [Function.comp_apply]
  split
  · exact (by assumption : e.1 = name).symm
  · rfl

theorem nodup_map_fst_concat {c : Constants} {name : Text} (value : Int)
    (h : ¬(c.get? name).isSome) : ((c.entries ++ [(name, value)]).map Prod.fst).Nodup := by
  have hnew : name ∉ c.entries.map Prod.fst := get?_eq_none_iff.mp (by simpa using h)
  rw [List.map_append, List.nodup_append]
  refine ⟨c.distinct, by simp, ?_⟩
  intro m hm n hn heq
  rw [List.map_singleton, List.mem_singleton] at hn
  rw [heq, hn] at hm
  exact hnew hm

/-- Define a constant; a later value replaces an earlier one. -/
def set (c : Constants) (name : Text) (value : Int) : Constants :=
  if h : (c.get? name).isSome then
    ⟨c.entries.map fun e => if e.1 = name then (name, value) else e,
      map_fst_replace c.entries name value ▸ c.distinct⟩
  else ⟨c.entries ++ [(name, value)], nodup_map_fst_concat value h⟩

def symbols (c : Constants) : SymbolTable :=
  ⟨(c.entries.mergeSort fun a b => decide (a.1 ≤ b.1)).map fun (n, v) => (n, ⟨.const, v, 0, 0⟩)⟩

end Constants

/-- What runs the text of a formula over constants: an error, or the variables after it that hold an
integer. -/
abbrev Interpreter (ε : Type) := Constants → Text → Except ε (Text → Option Int)

inductive DefinitionError (ε : Type) where
  | badName (name : Text)
  | formula (formula : Text) (error : ε)
  | notInteger (formula : Text)
deriving DecidableEq, Repr

namespace Constants

def resultName : Text := "rc"

/-- Define a constant by a formula over the constants so far, whose value is an integer of 64 bits.
-/
def defineBy {ε : Type} (interpret : Interpreter ε) (c : Constants) (name formula : Text) :
    Except (DefinitionError ε) Constants := do
  if !Text.isName name then throw (.badName name)
  match interpret c (resultName ++ 61 :: formula ++ [10]) with
  | .error e => throw (.formula formula e)
  | .ok values =>
    match values resultName with
    | none => throw (.notInteger formula)
    | some i =>
      if i < -0x8000000000000000 ∨ 0x8000000000000000 ≤ i then throw (.notInteger formula)
      return c.set name i

end Constants
end BarrelAsm
