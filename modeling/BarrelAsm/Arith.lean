import BarrelAsm.Check

/-! Arithmetic of 64-bit two's complement integers, and least common multiples in it. -/
namespace BarrelAsm.Arith

/-- The 64-bit two's complement value of an integer. -/
def wrap (i : Int) : Int := i.bmod 0x10000000000000000

def add (a b : Int) : Int := wrap (a + b)

def sub (a b : Int) : Int := wrap (a - b)

def mul (a b : Int) : Int := wrap (a * b)

/-- Division toward zero; only the quotient of the least integer by -1 wraps. -/
def div (a b : Int) : Int := wrap (a.tdiv b)

theorem natAbs_tmod_lt (a : Int) {b : Int} (h : b ≠ 0) : (a.tmod b).natAbs < b.natAbs := by
  rw [Int.natAbs_tmod]
  exact Nat.mod_lt _ (by omega)

def gcd (a b : Int) : Int :=
  if b = 0 then a else gcd b (a.tmod b)
termination_by b.natAbs
decreasing_by exact natAbs_tmod_lt a (by assumption)

section Checks

variable {m : Type → Type} [Monad m] [MonadTrap m]

/-- Take one more value into a least common multiple; values below 1 do not count. -/
def lcmStep (acc v : Int) : m Int := do
  if v ≤ 0 then return acc
  let divisor := gcd acc v
  check (divisor ≠ 0) .zeroDivisor
  return mul (div acc divisor) v

def lcmM (values : List Int) : m Int := values.foldlM lcmStep 1

end Checks

def lcm (values : List Int) : Int := Id.run (lcmM values)

end BarrelAsm.Arith
