import BarrelAsm.Proofs.Arith
import BarrelAsm.Proofs.Registry

/-! The length of the schedule against the room in the sequence table. The check is made in 64-bit
arithmetic, and it is right where the length does not wrap. -/
namespace BarrelAsm.Registry

/-- The least common multiple of the numbers of slots. -/
def period (r : Registry) : Nat := (r.processes.map fun p => p.slots.length).foldl Nat.lcm 1

theorem period_dvd_iff {r : Registry} {m : Nat} :
    r.period ∣ m ↔ ∀ p ∈ r.processes, p.slots.length ∣ m := by
  rw [period, Arith.foldl_lcm_dvd_iff]
  simp

theorem WellFormed.length_slots_pos {r : Registry} (hr : r.WellFormed) :
    ∀ v ∈ r.processes.map fun p => p.slots.length, 0 < v := by
  intro v hv
  obtain ⟨p, hp, rfl⟩ := List.mem_map.mp hv
  exact List.length_pos_of_ne_nil (hr.slots p hp)

theorem WellFormed.cycleLength_eq {r : Registry} (hr : r.WellFormed) (h : r.period < 2 ^ 63) :
    r.cycleLength = r.period := by
  have hfold := Arith.foldl_lcmWith_natCast Nat.one_pos hr.length_slots_pos h
  rw [List.map_map] at hfold
  exact (Arith.lcm_eq_foldl _).trans hfold

theorem WellFormed.cycleLength_of_count {r : Registry} (hr : r.WellFormed)
    (h : r.count * r.period < 2 ^ 63) : r.cycleLength = r.period := by
  refine hr.cycleLength_eq ?_
  by_cases hc : r.processes = []
  · simp [period, hc]
  · have hpos : 0 < r.count := List.length_pos_of_ne_nil hc
    exact Nat.lt_of_le_of_lt (Nat.le_mul_of_pos_left _ hpos) h

theorem checkCapacity_eq (r : Registry) : r.checkCapacity =
    if Arith.mul r.count r.cycleLength > sequenceDepth then
      .error (.scheduleOverflow (Arith.mul r.count r.cycleLength) sequenceDepth)
    else .ok () := rfl

theorem checkCapacity_ok_iff {r : Registry} :
    r.checkCapacity = .ok () ↔ Arith.mul r.count r.cycleLength ≤ 511 := by
  rw [checkCapacity_eq, sequenceDepth]
  split_ifs with h
  · simpa using h
  · simpa using h

theorem sequence_eq_flatMap (r : Registry) :
    r.sequence = (List.range r.cycleLength.toNat).flatMap fun step =>
      r.processes.map (·.locationAt step) := by
  have hstep : (fun step => r.processes.mapM fun p => p.locationAtM step) =
      fun step => (pure (r.processes.map (·.locationAt step)) : Id (List Int)) :=
    funext fun step => List.mapM_pure
  rw [sequence, sequenceM, hstep]
  simp only [List.mapM_pure, pure_bind, List.flatMap_def]
  rfl

theorem length_sequence (r : Registry) :
    r.sequence.length = r.count * r.cycleLength.toNat := by
  simp [sequence_eq_flatMap, count, List.length_flatMap, Nat.mul_comm]

theorem WellFormed.mul_count {r : Registry} (hr : r.WellFormed)
    (h : r.count * r.period < 2 ^ 63) :
    Arith.mul r.count r.cycleLength = (r.count * r.period : Nat) := by
  rw [hr.cycleLength_of_count h, Arith.mul, ← Int.natCast_mul, Arith.wrap_natCast h]

/-- The check finds out whether the schedule fits, and a schedule that passes has one entry for each
process in each step of a period, unless the product of the two wraps to something small. -/
theorem checkCapacity_exact {r : Registry} (h : r.Reachable) :
    (((r.checkCapacity = .ok () ↔ r.count * r.period ≤ 511) ∧
        (r.checkCapacity = .ok () → r.sequence.length = r.count * r.period)) ↔
      r.count * r.period < 2 ^ 63 ∨ 511 < Arith.mul r.count r.cycleLength) ∧
    (r.period < 2 ^ 63 → Arith.mul r.count r.cycleLength = Arith.wrap (r.count * r.period)) ∧
    (r.count * r.period ≤ 511 →
      r.checkCapacity = .ok () ∧ r.sequence.length = r.count * r.period) ∧
    ∀ m, r.period ∣ m ↔ ∀ p ∈ r.processes, p.slots.length ∣ m := by
  have hr := h.wellFormed
  have hlength : r.count * r.period < 2 ^ 63 → r.sequence.length = r.count * r.period := by
    intro hlt
    rw [length_sequence, hr.cycleLength_of_count hlt, Int.toNat_natCast]
  have hcheck : r.count * r.period < 2 ^ 63 →
      (r.checkCapacity = .ok () ↔ r.count * r.period ≤ 511) := by
    intro hlt
    rw [checkCapacity_ok_iff, hr.mul_count hlt]
    omega
  refine ⟨⟨?_, ?_⟩, ?_, ?_, fun m => period_dvd_iff⟩
  · rintro ⟨hiff, -⟩
    rw [checkCapacity_ok_iff] at hiff
    omega
  · rintro (hlt | hover)
    · exact ⟨hcheck hlt, fun _ => hlength hlt⟩
    · have hfail : r.checkCapacity ≠ .ok () := by
        rw [ne_eq, checkCapacity_ok_iff]
        omega
      have hbig : ¬r.count * r.period ≤ 511 := fun hle => hfail ((hcheck (by omega)).mpr hle)
      exact ⟨iff_of_false hfail hbig, fun hok => absurd hok hfail⟩
  · intro hlt
    rw [hr.cycleLength_eq hlt]
    rfl
  · intro hle
    exact ⟨(hcheck (by omega)).mpr hle, hlength (by omega)⟩

/-- Fifteen split processes with numbers of parts that have no common factors. -/
def coprime : Registry :=
  ⟨[16, 9, 5, 7, 11, 13, 17, 19, 23, 29, 31, 37, 41, 43, 47].zipIdx.map fun (n, i) =>
    ⟨[97 + UInt8.ofNat i], true, (List.range n).map fun k => ⟨[48 + UInt8.ofNat k], k⟩⟩⟩

theorem Reachable.foldlM {r r' : Registry} {names : List (Text × Int)} (hr : r.Reachable)
    (h : names.foldlM (fun r e => r.register e.1 e.2) r = .ok r') : r'.Reachable := by
  induction names generalizing r with
  | nil => cases h; exact hr
  | cons e es ih =>
    rw [List.foldlM_cons] at h
    cases hreg : r.register e.1 e.2 with
    | error f =>
      rw [hreg] at h
      cases h
    | ok r₁ =>
      rw [hreg] at h
      exact ih (hr.register hreg) h

theorem reachable_coprime : coprime.Reachable := by
  have h : coprime.entries.foldlM (fun r e => register r e.1 e.2) {} = .ok coprime := by
    decide +kernel
  exact Reachable.empty.foldlM h

theorem checkCapacity_exact_coprime :
    coprime.Reachable ∧ ¬((coprime.checkCapacity = .ok () ↔ coprime.count * coprime.period ≤ 511) ∧
      (coprime.checkCapacity = .ok () →
        coprime.sequence.length = coprime.count * coprime.period)) := by
  refine ⟨reachable_coprime, fun hright => ?_⟩
  have hwrap := (checkCapacity_exact reachable_coprime).1.mp hright
  exact absurd hwrap (by decide +kernel)

/-- A schedule that is far too long passes the check, and it is empty. -/
theorem checkCapacity_overflow :
    ∃ r : Registry, r.Reachable ∧ r.checkCapacity = .ok () ∧ r.sequence = [] ∧
      r.count * r.period = 221360321731856907600 :=
  ⟨coprime, reachable_coprime, by decide +kernel, by decide +kernel, by decide +kernel⟩

end BarrelAsm.Registry
