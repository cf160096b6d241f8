import BarrelAsm.Arith
import Mathlib.Data.Int.Lemmas
import Mathlib.Tactic.SplitIfs

/-! Integers cut to bytes and to 16 bits; greatest common divisors and least common multiples in
64-bit arithmetic. -/
namespace BarrelAsm.Arith

theorem toNat_uint8_ofInt (v : Int) : ((UInt8.ofInt v).toNat : Int) = v % 256 := by
  rw [UInt8.ofInt, UInt8.toNat_ofNat']
  omega

theorem toNat_uint16_ofInt (v : Int) : ((UInt16.ofInt v).toNat : Int) = v % 2 ^ 16 := by
  rw [UInt16.ofInt, UInt16.toNat_ofNat']
  omega

theorem uint8_ofInt_natCast (n : Nat) : UInt8.ofInt n = UInt8.ofNat n := by
  have hint := toNat_uint8_ofInt n
  rw [← UInt8.toNat_inj, UInt8.toNat_ofNat']
  omega

theorem gcd_ne_zero {a b : Int} (h : b ≠ 0) : gcd a b ≠ 0 := by
  fun_induction gcd a b with
  | case1 a => exact absurd rfl h
  | case2 a b hb ih =>
    by_cases hr : a.tmod b = 0
    · rw [hr, gcd, if_pos rfl]
      exact hb
    · exact ih hr

theorem wrap_of_natAbs_lt {i : Int} (h : i.natAbs < 2 ^ 63) : wrap i = i := by
  unfold wrap
  exact Int.bmod_eq_of_le (by omega) (by omega)

theorem wrap_natCast {n : Nat} (h : n < 2 ^ 63) : wrap n = n := wrap_of_natAbs_lt h

theorem wrap_le {i : Int} (h : 0 ≤ i) : wrap i ≤ i := by
  unfold wrap
  rw [Int.bmod_def]
  split_ifs <;> omega

theorem gcd_natCast (a b : Nat) : gcd a b = Nat.gcd a b := by
  induction b using Nat.strongRecOn generalizing a with
  | ind b ih =>
    rw [gcd]
    by_cases hb : b = 0
    · simp [hb]
    · rw [if_neg (by omega), ← Int.ofNat_tmod, ih (a % b) (Nat.mod_lt _ (by omega)),
        Nat.gcd_comm b, ← Nat.gcd_rec, Nat.gcd_comm]

theorem tdiv_gcd_mul (a v : Nat) : (a : Int).tdiv (gcd a v) * v = Nat.lcm a v := by
  rw [gcd_natCast, ← Int.ofNat_tdiv, ← Int.natCast_mul, Nat.lcm_eq_mul_div, Nat.mul_comm,
    ← Nat.mul_div_assoc _ (Nat.gcd_dvd_left a v), Nat.mul_comm]

/-- Dividing first keeps the quotient below the least common multiple. -/
theorem div_gcd_natCast {a v : Nat} (hv : 0 < v) (h : Nat.lcm a v < 2 ^ 63) :
    div a (gcd a v) = (a : Int).tdiv (gcd a v) := by
  have hdiv := tdiv_gcd_mul a v
  rw [gcd_natCast, ← Int.ofNat_tdiv, ← Int.natCast_mul, Int.natCast_inj] at hdiv
  have hle : a / Nat.gcd a v ≤ Nat.lcm a v := by
    rw [← hdiv]
    exact Nat.le_mul_of_pos_right _ hv
  rw [div, gcd_natCast, ← Int.ofNat_tdiv]
  exact wrap_natCast (by omega)

/-- The common multiple with one more value. -/
def lcmWith (acc v : Int) : Int := if v ≤ 0 then acc else mul (div acc (gcd acc v)) v

section Checks

variable {m : Type → Type} [Monad m] [LawfulMonad m] [MonadTrap m]

/-- No divisor is zero, so that it does not matter what a failed check does. -/
theorem lcmStep_eq : (lcmStep : Int → Int → m Int) = fun acc v => pure (lcmWith acc v) := by
  funext acc v
  unfold lcmStep lcmWith
  split_ifs with hv
  · rfl
  · dsimp only
    rw [check_of (gcd_ne_zero (by omega)), pure_bind]

theorem lcmM_eq_foldl (values : List Int) :
    (lcmM values : m Int) = pure (values.foldl lcmWith 1) := by
  rw [lcmM, lcmStep_eq, List.foldlM_pure]

end Checks

theorem lcm_eq_foldl (values : List Int) : lcm values = values.foldl lcmWith 1 := by
  rw [lcm, lcmM_eq_foldl]
  rfl

/-- A step is exact as long as the least common multiple itself fits. -/
theorem lcmWith_natCast {a v : Nat} (hv : 0 < v) (h : Nat.lcm a v < 2 ^ 63) :
    lcmWith a v = Nat.lcm a v := by
  rw [lcmWith, if_neg (by omega), div_gcd_natCast hv h, mul, tdiv_gcd_mul, wrap_natCast h]

theorem foldl_lcm_dvd_iff {vs : List Nat} {a m : Nat} :
    vs.foldl Nat.lcm a ∣ m ↔ a ∣ m ∧ ∀ v ∈ vs, v ∣ m := by
  induction vs generalizing a with
  | nil => simp
  | cons v vs ih => simp [ih, Nat.lcm_dvd_iff, and_assoc]

theorem foldl_lcm_pos {vs : List Nat} {a : Nat} (ha : 0 < a) (hv : ∀ v ∈ vs, 0 < v) :
    0 < vs.foldl Nat.lcm a := by
  induction vs generalizing a with
  | nil => exact ha
  | cons v vs ih =>
    exact ih (Nat.lcm_pos ha (hv v List.mem_cons_self)) fun w hw => hv w (List.mem_cons_of_mem v hw)

theorem foldl_lcmWith_natCast {vs : List Nat} {a : Nat} (ha : 0 < a) (hv : ∀ v ∈ vs, 0 < v)
    (h : vs.foldl Nat.lcm a < 2 ^ 63) :
    (vs.map fun v : Nat => (v : Int)).foldl lcmWith a = (vs.foldl Nat.lcm a : Nat) := by
  induction vs generalizing a with
  | nil => rfl
  | cons v vs ih =>
    have hpos : 0 < v := hv v List.mem_cons_self
    have hrest : ∀ w ∈ vs, 0 < w := fun w hw => hv w (List.mem_cons_of_mem v hw)
    have hstep : 0 < Nat.lcm a v := Nat.lcm_pos ha hpos
    -- What was taken in so far divides the result, so it fits as well.
    have hle : Nat.lcm a v ≤ vs.foldl Nat.lcm (Nat.lcm a v) :=
      Nat.le_of_dvd (foldl_lcm_pos hstep hrest) (foldl_lcm_dvd_iff.mp (Nat.dvd_refl _)).1
    rw [List.foldl_cons] at h
    rw [List.map_cons, List.foldl_cons, lcmWith_natCast hpos (Nat.lt_of_le_of_lt hle h),
      ih hstep hrest h, List.foldl_cons]

end BarrelAsm.Arith
