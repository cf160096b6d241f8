import BarrelAsm.Text.Basic

/-! Checks that fail only if the assembler itself is wrong. The code that makes them leaves open
what becomes of one that fails: a plain run passes over it, a checked run ends there. -/
namespace BarrelAsm

inductive Trap where
  /-- The second pass came to a line at another address than the first pass. -/
  | addressMismatch (line : Nat)
  | noAddress (line : Nat)
  /-- An expansion has another number of words than was reserved for it. -/
  | wordCount (name : Text)
  | unknownPseudo (name : Text)
  | noPlace (line : Nat)
  | noSlot (process : Text)
  | negativeSize (size : Int)
  | zeroDivisor
deriving DecidableEq, Repr

/-- What becomes of a failed check. -/
class MonadTrap (m : Type → Type) where
  trap : Trap → m Unit

instance : MonadTrap Id where
  trap _ := pure ()

instance : MonadTrap (Except Trap) where
  trap := .error

section

variable {m : Type → Type} [Monad m] [MonadTrap m] {condition : Prop} [Decidable condition]

def check (condition : Prop) [Decidable condition] (t : Trap) : m Unit :=
  if condition then pure () else MonadTrap.trap t

theorem check_of (h : condition) (t : Trap) : (check condition t : m Unit) = pure () := if_pos h

end

end BarrelAsm
