import BarrelAsm.Proofs.Arith
import Mathlib.Algebra.GCDMonoid.Finset
import Mathlib.Algebra.GCDMonoid.Nat
import Mathlib.Data.List.Induction

/-! Least common multiples in 64-bit arithmetic, for any list of numbers. Euclid's loop ends from
wherever a product that wrapped may have gone, and the divisor that it finds is not zero. Where the
least common multiple itself fits, nothing wraps on the way to it. -/
namespace BarrelAsm.Arith

/-- Euclid's loop in 64-bit arithmetic comes to an end after `n` rounds: each one goes on with the
second number and the remainder, as long as the second number is not zero. -/
inductive Euclid : Nat → Int → Int → Int → Prop where
  | stop (a : Int) : Euclid 0 a 0 a
  | round {n : Nat} {a b g : Int} (hb : b ≠ 0) (h : Euclid n b (wrap (a.tmod b)) g) :
    Euclid (n + 1) a b g

theorem two_mul_mod_lt {a b : Nat} (hb : 0 < b) (h : b ≤ a) : 2 * (a % b) < a := by
  have hquot : b ≤ b * (a / b) := Nat.le_mul_of_pos_right b (Nat.div_pos h hb)
  have hrem := Nat.mod_lt a hb
  have hsum := Nat.div_add_mod a b
  omega

/-- Two rounds take a bit off the second number, whatever the signs are, and no remainder wraps. -/
theorem euclid_gcd {k : Nat} {a b : Int} (hword : b.natAbs < 2 ^ 63) (h : b.natAbs < 2 ^ k) :
    ∃ n ≤ 2 * k, Euclid n a b (gcd a b) := by
  induction k generalizing a b with
  | zero =>
    obtain rfl : b = 0 := by simpa using h
    rw [gcd, if_pos rfl]
    exact ⟨0, Nat.le_refl _, .stop a⟩
  | succ k ih =>
    rw [gcd]
    split_ifs with hb
    · subst hb
      exact ⟨0, Nat.zero_le _, .stop a⟩
    · have hlt := natAbs_tmod_lt a hb
      have hfirst : wrap (a.tmod b) = a.tmod b := wrap_of_natAbs_lt (hlt.trans hword)
      rw [gcd]
      split_ifs with hr
      · refine ⟨1, by omega, .round hb ?_⟩
        rw [hfirst, hr]
        exact .stop b
      · have hlt' := natAbs_tmod_lt b hr
        have hword' := (hlt'.trans hlt).trans hword
        have hhalf : (b.tmod (a.tmod b)).natAbs < 2 ^ k := by
          have hmod := two_mul_mod_lt (Int.natAbs_pos.mpr hr) hlt.le
          rw [Int.natAbs_tmod b]
          rw [Nat.pow_succ] at h
          omega
        obtain ⟨n, hn, hend⟩ := ih (a := a.tmod b) hword' hhalf
        refine ⟨n + 2, by omega, .round hb ?_⟩
        rw [hfirst]
        refine .round hr ?_
        rw [wrap_of_natAbs_lt hword']
        exact hend

/-- The least common multiple of the positive values. -/
def leastMultiple (values : List Int) : Nat := (values.toFinset.filter (0 < ·)).lcm Int.toNat

theorem leastMultiple_dvd_iff {values : List Int} {m : Nat} :
    leastMultiple values ∣ m ↔ ∀ v ∈ values, 0 < v → v ∣ m := by
  have htoNat : ∀ v : Int, 0 < v → (v.toNat ∣ m ↔ v ∣ m) := by
    intro v hv
    rw [← Int.natCast_dvd_natCast, Int.toNat_of_nonneg hv.le]
  unfold leastMultiple
  rw [Finset.lcm_dvd_iff]
  simp only [Finset.mem_filter, List.mem_toFinset, and_imp]
  exact forall₃_congr fun v _ hv => htoNat v hv

theorem leastMultiple_pos (values : List Int) : 0 < leastMultiple values := by
  refine Nat.pos_of_ne_zero fun hzero => ?_
  obtain ⟨v, hv, hv0⟩ := Finset.lcm_eq_zero_iff.mp hzero
  have hpos := (Finset.mem_filter.mp (Finset.mem_coe.mp hv)).2
  omega

theorem leastMultiple_congr {values others : List Int}
    (h : ∀ v, 0 < v → (v ∈ others ↔ v ∈ values)) : leastMultiple others = leastMultiple values := by
  refine Nat.dvd_right_iff_eq.mp fun m => ?_
  rw [leastMultiple_dvd_iff, leastMultiple_dvd_iff]
  constructor
  · intro hm v hv hpos
    exact hm v ((h v hpos).mpr hv) hpos
  · intro hm v hv hpos
    exact hm v ((h v hpos).mp hv) hpos

/-- What some of the values have for a least common multiple divides that of them all. -/
theorem leastMultiple_le {values taken : List Int} (h : taken ⊆ values) :
    leastMultiple taken ≤ leastMultiple values := by
  refine Nat.le_of_dvd (leastMultiple_pos values) (leastMultiple_dvd_iff.mpr ?_)
  intro v hv hpos
  exact leastMultiple_dvd_iff.mp (Nat.dvd_refl _) v (h hv) hpos

theorem leastMultiple_concat (values : List Int) {v : Nat} (hv : 0 < v) :
    leastMultiple (values ++ [(v : Int)]) = Nat.lcm (leastMultiple values) v := by
  refine Nat.dvd_right_iff_eq.mp fun m => ?_
  rw [Nat.lcm_dvd_iff, leastMultiple_dvd_iff, leastMultiple_dvd_iff]
  simp [or_imp, forall_and, hv, Int.natCast_dvd_natCast]

theorem leastMultiple_concat_of_nonpos (values : List Int) {v : Int} (hv : v ≤ 0) :
    leastMultiple (values ++ [v]) = leastMultiple values := by
  refine leastMultiple_congr fun w hw => ?_
  have hne : w ≠ v := by omega
  simp [hne]

theorem lcm_concat (values : List Int) (v : Int) :
    lcm (values ++ [v]) = lcmWith (lcm values) v := by
  simp [lcm_eq_foldl]

theorem lcm_eq_leastMultiple {values : List Int} (h : leastMultiple values < 2 ^ 63) :
    lcm values = leastMultiple values := by
  induction values using List.reverseRecOn with
  | nil => rfl
  | append_singleton values v ih =>
    have hle := leastMultiple_le (List.subset_append_left values [v])
    rw [lcm_concat, ih (by omega)]
    by_cases hv : v ≤ 0
    · rw [leastMultiple_concat_of_nonpos values hv, lcmWith, if_pos hv]
    · lift v to Nat using by omega
      rw [leastMultiple_concat values (by omega)] at h ⊢
      exact lcmWith_natCast (by omega) h

/-- Neither the quotient nor the product of a step wraps. -/
theorem step_unwrapped {values : List Int} {v : Int} (hv : 0 < v)
    (h : leastMultiple (values ++ [v]) < 2 ^ 63) :
    div (lcm values) (gcd (lcm values) v) = (lcm values).tdiv (gcd (lcm values) v) ∧
    mul (div (lcm values) (gcd (lcm values) v)) v =
      div (lcm values) (gcd (lcm values) v) * v := by
  have hle := leastMultiple_le (List.subset_append_left values [v])
  rw [lcm_eq_leastMultiple (by omega)]
  lift v to Nat using hv.le
  rw [leastMultiple_concat values (by omega)] at h
  rw [div_gcd_natCast (by omega) h, mul, tdiv_gcd_mul]
  exact ⟨rfl, wrap_natCast h⟩

/-- Whatever number the values so far were taken into, the next positive one has a divisor with it
that is not zero, and Euclid's loop finds it in at most 126 rounds; so that no list of numbers makes
a division fail. If the least common multiple of the positive values fits into 64 bits with a sign,
it is the result, no quotient and no product wraps on the way, and any list with the same positive
values gives the same. -/
theorem lcm_exact (values : List Int) (h : ∀ v ∈ values, -2 ^ 63 ≤ v ∧ v < 2 ^ 63) :
    (∀ acc, ∀ v ∈ values, 0 < v →
      gcd acc v ≠ 0 ∧ ∃ n ≤ 126, Euclid n acc v (gcd acc v)) ∧
    (lcmM values : Except Trap Int) = .ok (lcm values) ∧
    (∀ m : Nat, leastMultiple values ∣ m ↔ ∀ v ∈ values, 0 < v → v ∣ m) ∧
    (leastMultiple values < 2 ^ 63 →
      lcm values = leastMultiple values ∧
      (∀ taken v, taken ++ [v] <+: values → 0 < v →
        let acc := lcm taken
        acc = leastMultiple taken ∧
        div acc (gcd acc v) = acc.tdiv (gcd acc v) ∧
        mul (div acc (gcd acc v)) v = div acc (gcd acc v) * v ∧
        lcm (taken ++ [v]) = acc.tdiv (gcd acc v) * v) ∧
      ∀ others, (∀ v, 0 < v → (v ∈ others ↔ v ∈ values)) → lcm others = lcm values) := by
  have hchecked : (lcmM values : Except Trap Int) = .ok (lcm values) := by
    rw [lcmM_eq_foldl, lcm_eq_foldl]
    rfl
  refine ⟨?_, hchecked, fun m => leastMultiple_dvd_iff, ?_⟩
  · intro acc v hv hpos
    have hword : v.natAbs < 2 ^ 63 := by
      have := h v hv
      omega
    exact ⟨gcd_ne_zero hpos.ne', euclid_gcd hword hword⟩
  · intro hfits
    refine ⟨lcm_eq_leastMultiple hfits, ?_, ?_⟩
    · intro taken v htaken hpos acc
      have hstep := leastMultiple_le htaken.subset
      have hbefore := leastMultiple_le (List.subset_append_left taken [v])
      obtain ⟨hquot, hprod⟩ := step_unwrapped hpos (Nat.lt_of_le_of_lt hstep hfits)
      refine ⟨lcm_eq_leastMultiple (by omega), hquot, hprod, ?_⟩
      rw [lcm_concat, lcmWith, if_neg (by omega), hprod, hquot]
    · intro others hothers
      have heq := leastMultiple_congr hothers
      rw [lcm_eq_leastMultiple hfits, lcm_eq_leastMultiple (heq ▸ hfits), heq]

/-- Values that do not count stand between the others in the first list; in the second one, the
product of the first two values wraps to a negative number. -/
theorem lcm_exact_sample :
    lcm [4, -7, 6, 0, 9] = 36 ∧ lcm [9, 6, 4, 6] = lcm [4, -7, 6, 0, 9] ∧
    lcm [2 ^ 62, 3] = -2 ^ 62 ∧ gcd (-2 ^ 62) 5 ≠ 0 ∧
    (∃ n ≤ 126, Euclid n (-2 ^ 62) 5 (gcd (-2 ^ 62) 5)) ∧
    ∃ m, (lcmM [2 ^ 62, 3, 5] : Except Trap Int) = .ok m := by
  have hfits : leastMultiple [4, -7, 6, 0, 9] = 36 := by decide
  obtain ⟨-, -, -, hexact⟩ := lcm_exact [4, -7, 6, 0, 9] (by decide)
  obtain ⟨hlcm, -, hothers⟩ := hexact (by rw [hfits]; decide)
  obtain ⟨hends, hchecked, -⟩ := lcm_exact [2 ^ 62, 3, 5] (by decide)
  obtain ⟨hne, hrounds⟩ := hends (-2 ^ 62) 5 (by decide) (by decide)
  refine ⟨?_, ?_, by decide +kernel, hne, hrounds, _, hchecked⟩
  · rw [hlcm, hfits]
    rfl
  · refine hothers [9, 6, 4, 6] fun v hv => ?_
    simp only [List.mem_cons, List.not_mem_nil, or_false]
    omega

end BarrelAsm.Arith
