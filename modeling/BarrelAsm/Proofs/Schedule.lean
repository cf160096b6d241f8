import BarrelAsm.Proofs.Capacity
import Mathlib.Data.Int.CardIntervalMod

/-! The schedule is a round robin: in each step every process runs the next of its slots, and the
table can be repeated without a seam. -/
namespace BarrelAsm

/-- Where all blocks have the same length, the block and the place in it give the position. -/
theorem getElem?_flatMap_of_length {α β : Type} {f : α → List β} {k : Nat} {xs : List α}
    (hf : ∀ x ∈ xs, (f x).length = k) (n : Nat) {j : Nat} (hj : j < k) :
    (xs.flatMap f)[n * k + j]? = xs[n]?.bind fun x => (f x)[j]? := by
  induction xs generalizing n with
  | nil => simp
  | cons x xs ih =>
    have hx : (f x).length = k := hf x List.mem_cons_self
    rw [List.flatMap_cons]
    cases n with
    | zero =>
      rw [Nat.zero_mul, Nat.zero_add, List.getElem?_append_left (by omega)]
      rfl
    | succ n =>
      rw [List.getElem?_append_right (by rw [hx, Nat.succ_mul]; omega), hx,
        show (n + 1) * k + j - k = n * k + j by rw [Nat.succ_mul]; omega,
        ih (fun y hy => hf y (List.mem_cons_of_mem x hy)), List.getElem?_cons_succ]

namespace Process

variable {p : Process}

theorem exists_slot (h : p.slots ≠ []) (step : Nat) :
    ∃ s, p.slots[step % p.slots.length]? = some s ∧ p.locationAt step = s.location := by
  have hlt : step % p.slots.length < p.slots.length :=
    Nat.mod_lt _ (List.length_pos_of_ne_nil h)
  refine ⟨_, List.getElem?_eq_getElem hlt, ?_⟩
  rw [locationAt, locationAtM, List.getElem?_eq_getElem hlt]
  rfl

/-- After a common multiple of the numbers of slots the process is where it was. -/
theorem locationAt_mod {m : Nat} (h : p.slots.length ∣ m) (step : Nat) :
    p.locationAt (step % m) = p.locationAt step := by
  rw [locationAt, locationAtM, Nat.mod_mod_of_dvd step h]
  rfl

/-- In a whole number of turns each slot gets its share of the steps. -/
theorem count_turns {m j : Nat} (h : p.slots.length ∣ m) (hj : j < p.slots.length) :
    m.count (fun step => step % p.slots.length = j) = m / p.slots.length := by
  have hmod := Nat.count_modEq_card m (r := p.slots.length) (by omega) j
  rw [Nat.mod_eq_zero_of_dvd h, if_neg (Nat.not_lt_zero _), Nat.add_zero] at hmod
  rw [← hmod]
  simp only [Nat.ModEq, Nat.mod_eq_of_lt hj]

end Process

namespace Registry

variable {r : Registry}

/-- When a cycle of this many steps is over, every process is at the slot that it started from. -/
def Wraps (r : Registry) (cycle : Nat) : Prop :=
  ∀ p ∈ r.processes, ∀ step, (step + cycle) % p.slots.length = step % p.slots.length

theorem wraps_iff {cycle : Nat} :
    r.Wraps cycle ↔ ∀ p ∈ r.processes, p.slots.length ∣ cycle := by
  refine forall₂_congr fun p _ => ⟨fun h => ?_, fun h step => ?_⟩
  · exact Nat.dvd_of_mod_eq_zero (by simpa using h 0)
  · rw [Nat.add_mod, Nat.mod_eq_zero_of_dvd h, Nat.add_zero, Nat.mod_mod]

theorem WellFormed.period_pos (hr : r.WellFormed) : 0 < r.period :=
  Arith.foldl_lcm_pos Nat.one_pos hr.length_slots_pos

theorem sequence_eq (h : r.cycleLength = r.period) :
    r.sequence = (List.range r.period).flatMap fun step => r.processes.map (·.locationAt step) := by
  rw [sequence_eq_flatMap, h, Int.toNat_natCast]

theorem WellFormed.getElem?_sequence (hr : r.WellFormed) (h : r.cycleLength = r.period) {i : Nat}
    {p : Process} (hp : r.processes[i]? = some p) (step : Nat) :
    r.sequence[step % r.period * r.count + i]? = some (p.locationAt step) := by
  have hi : i < r.count := (List.getElem?_eq_some_iff.mp hp).1
  have hdvd : p.slots.length ∣ r.period :=
    period_dvd_iff.mp (Nat.dvd_refl _) p (List.mem_of_getElem? hp)
  rw [sequence_eq h, getElem?_flatMap_of_length (by simp [count]) _ hi,
    List.getElem?_range (Nat.mod_lt _ hr.period_pos), Option.bind_some, List.getElem?_map, hp,
    Option.map_some, Process.locationAt_mod hdvd]

/-- A slot has its turn in a step of the first cycle. -/
theorem WellFormed.mem_sequence_iff (hr : r.WellFormed) (h : r.cycleLength = r.period)
    (location : Int) : location ∈ r.sequence ↔ location ∈ r.starts := by
  rw [sequence_eq h, starts]
  simp only [List.mem_flatMap, List.mem_map, List.mem_range]
  constructor
  · rintro ⟨step, -, p, hp, rfl⟩
    obtain ⟨s, hs, hl⟩ := Process.exists_slot (hr.slots p hp) step
    exact ⟨p, hp, s, List.mem_of_getElem? hs, hl.symm⟩
  · rintro ⟨p, hp, s, hs, rfl⟩
    obtain ⟨j, hj⟩ := List.getElem?_of_mem hs
    have hlt := (List.getElem?_eq_some_iff.mp hj).1
    have hle : p.slots.length ≤ r.period :=
      Nat.le_of_dvd hr.period_pos (period_dvd_iff.mp (Nat.dvd_refl _) p hp)
    refine ⟨j, Nat.lt_of_lt_of_le hlt hle, p, hp, ?_⟩
    rw [Process.locationAt, Process.locationAtM, Nat.mod_eq_of_lt hlt, hj]
    rfl

/-- The schedule runs for the least common multiple of the numbers of slots, which is the shortest
cycle that can be repeated. In any step, also of a later cycle, a process runs its slots in turn,
each of them as often as the others, and nothing is run but the slots. -/
theorem sequence_roundRobin (h : r.Reachable) (hfits : r.period < 2 ^ 63) :
    r.cycleLength = r.period ∧ r.sequence.length = r.count * r.period ∧
    (∀ i p, r.processes[i]? = some p →
      (∀ step, ∃ s, p.slots[step % p.slots.length]? = some s ∧
        r.sequence[step % r.period * r.count + i]? = some s.location) ∧
      ∀ j < p.slots.length, r.period.count (fun step => step % p.slots.length = j) =
        r.period / p.slots.length) ∧
    (∀ cycle, r.Wraps cycle ↔ ∀ p ∈ r.processes, p.slots.length ∣ cycle) ∧
    r.Wraps r.period ∧ (∀ cycle, 0 < cycle → r.Wraps cycle → r.period ≤ cycle) ∧
    ∀ location, location ∈ r.sequence ↔ location ∈ r.starts := by
  have hr := h.wellFormed
  have hcycle := hr.cycleLength_eq hfits
  refine ⟨hcycle, by rw [length_sequence, hcycle, Int.toNat_natCast], ?_, fun _ => wraps_iff,
    wraps_iff.mpr (period_dvd_iff.mp (Nat.dvd_refl _)), ?_, hr.mem_sequence_iff hcycle⟩
  · intro i p hp
    have hmem := List.mem_of_getElem? hp
    refine ⟨fun step => ?_, fun j hj => ?_⟩
    · obtain ⟨s, hs, hl⟩ := Process.exists_slot (hr.slots p hmem) step
      exact ⟨s, hs, by rw [hr.getElem?_sequence hcycle hp, hl]⟩
    · exact Process.count_turns (period_dvd_iff.mp (Nat.dvd_refl _) p hmem) hj
  · intro cycle hpos hwraps
    exact Nat.le_of_dvd hpos (period_dvd_iff.mpr (wraps_iff.mp hwraps))

/-- Two split processes of two and three parts, and a plain one. -/
def uneven : Registry :=
  ⟨[⟨"a", true, [⟨"x", 0⟩, ⟨"y", 4⟩]⟩, ⟨"b", true, [⟨"u", 7⟩, ⟨"v", 8⟩, ⟨"w", 10⟩]⟩,
    ⟨"c", false, [⟨"c", 12⟩]⟩]⟩

theorem reachable_uneven : uneven.Reachable := by
  have h : uneven.entries.foldlM (fun r e => register r e.1 e.2) {} = .ok uneven := by
    decide +kernel
  exact Reachable.empty.foldlM h

theorem sequence_roundRobin_uneven :
    uneven.Reachable ∧ uneven.period = 6 ∧ uneven.sequence.length = 3 * 6 ∧
      uneven.sequence[100 % 6 * 3 + 1]? = some 8 ∧
      Nat.count (fun step => step % 3 = 1) 6 = 2 ∧
      ∀ cycle, 0 < cycle → uneven.Wraps cycle → 6 ≤ cycle := by
  have hperiod : uneven.period = 6 := by decide +kernel
  obtain ⟨-, hlength, hslots, -, -, hleast, -⟩ :=
    sequence_roundRobin reachable_uneven (by rw [hperiod]; decide)
  obtain ⟨hturn, hshare⟩ := hslots 1 ⟨"b", true, [⟨"u", 7⟩, ⟨"v", 8⟩, ⟨"w", 10⟩]⟩ rfl
  rw [hperiod] at hlength hturn hshare hleast
  obtain ⟨s, hs, hentry⟩ := hturn 100
  cases hs
  exact ⟨reachable_uneven, hperiod, hlength, hentry, hshare 1 (by decide), hleast⟩

end Registry
end BarrelAsm
