import BarrelAsm.Proofs.Registry
import Mathlib.Algebra.GroupWithZero.Nat
import Mathlib.Data.List.Induction

/-! Which names a registry admits. What was admitted so far decides, whatever the order and whatever
was rejected in between: a name is turned away exactly if it clashes with one of those. -/
namespace BarrelAsm.Registry

variable {r r' : Registry} {name : Text} {location : Int}

/-- A plain process has one slot, named after itself; the parts of a split one have names of their
own. -/
structure SlotsNamed (r : Registry) : Prop where
  plain : ∀ p ∈ r.processes, p.split = false → ∃ location, p.slots = [⟨p.name, location⟩]
  parts : ∀ p ∈ r.processes, p.split = true → (p.slots.map Slot.name).Nodup

theorem SlotsNamed.register (hn : r.SlotsNamed) (hr : r.WellFormed)
    (h : r.register name location = .ok r') : r'.SlotsNamed := by
  rcases register_ok h with ⟨-, rfl⟩ | ⟨p, part, hf, -, hsplit, hfresh, rfl⟩
  · constructor
    · intro q hq hplain
      rcases List.mem_append.mp hq with hq | hq
      · exact hn.plain q hq hplain
      · obtain rfl := List.mem_singleton.mp hq
        have ha : Text.after? 46 name = none := by simpa using hplain
        exact ⟨location, by simp [ha]⟩
    · intro q hq hq'
      rcases List.mem_append.mp hq with hq | hq
      · exact hn.parts q hq hq'
      · obtain rfl := List.mem_singleton.mp hq
        exact List.nodup_singleton _
  · obtain ⟨hp, htop⟩ := name_of_find? hf
    -- Names are distinct, so that the process with the new slot is the one that was found.
    have hfound : ∀ q ∈ r.processes, q.name = Text.before 46 name → q = p := by
      intro q hq hqn
      exact hr.eq_of_name hq hp (hqn.trans htop.symm)
    constructor
    · intro q hq hplain
      obtain ⟨q, hm, rfl⟩ := mem_addSlot.mp hq
      by_cases hqn : q.name = Text.before 46 name
      · rw [if_pos hqn, hfound q hm hqn, hsplit] at hplain
        cases hplain
      · rw [if_neg hqn] at hplain ⊢
        exact hn.plain q hm hplain
    · intro q hq hq'
      obtain ⟨q, hm, rfl⟩ := mem_addSlot.mp hq
      by_cases hqn : q.name = Text.before 46 name
      · obtain rfl := hfound q hm hqn
        rw [if_pos hqn, List.map_append]
        refine List.nodup_append.mpr ⟨hn.parts q hm hsplit, List.nodup_singleton _, ?_⟩
        intro n hn m hm
        obtain ⟨s, hs, rfl⟩ := List.mem_map.mp hn
        rw [List.mem_singleton.mp hm]
        exact hfresh s hs
      · rw [if_neg hqn] at hq' ⊢
        exact hn.parts q hm hq'

/-- A name with a new top part puts a process behind the others, any other one adds none. -/
theorem names_register (h : r.register name location = .ok r') :
    (Text.before 46 name ∉ r.processes.map Process.name ∧
      r'.processes.map Process.name = r.processes.map Process.name ++ [Text.before 46 name]) ∨
    (Text.before 46 name ∈ r.processes.map Process.name ∧
      r'.processes.map Process.name = r.processes.map Process.name) := by
  rcases register_ok h with ⟨hf, rfl⟩ | ⟨p, part, hf, -, -, -, rfl⟩
  · refine .inl ⟨?_, by simp⟩
    intro hm
    obtain ⟨p, hp, hpn⟩ := List.mem_map.mp hm
    exact name_ne_of_find?_none hf p hp hpn
  · obtain ⟨hp, htop⟩ := name_of_find? hf
    refine .inr ⟨?_, map_name_addSlot r _ _⟩
    rw [← htop]
    exact List.mem_map_of_mem hp

theorem length_entries (r : Registry) :
    r.entries.length = (r.processes.map fun p => p.slots.length).sum := by
  simp [entries, List.length_flatMap]

/-- A registry, and the names that it admitted with their locations, in this order. -/
structure History where
  registry : Registry := {}
  admitted : List (Text × Int) := []

namespace History

/-- Ask for a name to be registered; a registry that rejects it stays as it is. -/
def ask (h : History) (call : Text × Int) : History :=
  match h.registry.register call.1 call.2 with
  | .ok r => ⟨r, h.admitted ++ [call]⟩
  | .error _ => h

/-- What comes of calls on an empty registry. -/
def ofCalls (calls : List (Text × Int)) : History := calls.foldl ask {}

theorem ofCalls_concat (calls : List (Text × Int)) (call : Text × Int) :
    ofCalls (calls ++ [call]) = (ofCalls calls).ask call := by
  simp [ofCalls]

theorem ask_ok {h : History} (hr : h.registry.register name location = .ok r) :
    h.ask (name, location) = ⟨r, h.admitted ++ [(name, location)]⟩ := by
  simp [ask, hr]

theorem ask_fault {h : History} {f : Fault} (hr : h.registry.register name location = .error f) :
    h.ask (name, location) = h := by
  simp [ask, hr]

/-- The registry holds what it admitted: a process for each top part, in the order in which these
came first, and a slot for each name. -/
structure Exact (h : History) : Prop where
  wellFormed : h.registry.WellFormed
  slots : h.registry.SlotsNamed
  names : h.registry.processes.map Process.name =
    (h.admitted.map fun c => Text.before 46 c.1).eraseDups
  entries : h.registry.entries.Perm h.admitted

theorem exact_empty : Exact {} where
  wellFormed := wellFormed_empty
  slots := ⟨by simp, by simp⟩
  names := by simp
  entries := List.Perm.refl _

theorem Exact.mem_names_iff {h : History} (he : h.Exact) (top : Text) :
    top ∈ h.registry.processes.map Process.name ↔
      top ∈ h.admitted.map fun c => Text.before 46 c.1 := by
  rw [he.names, List.mem_eraseDups]

theorem Exact.ask {h : History} (he : h.Exact) (call : Text × Int) : (h.ask call).Exact := by
  obtain ⟨name, location⟩ := call
  cases hr : h.registry.register name location with
  | error f =>
    rw [ask_fault hr]
    exact he
  | ok r =>
    rw [ask_ok hr]
    refine ⟨he.wellFormed.register hr, he.slots.register he.wellFormed hr, ?_, ?_⟩
    · rw [List.map_append, List.map_singleton]
      rcases names_register hr with ⟨hnew, hnames⟩ | ⟨hold, hnames⟩
      · rw [he.mem_names_iff] at hnew
        rw [eraseDups_concat_of_notMem hnew, ← he.names]
        exact hnames
      · rw [he.mem_names_iff] at hold
        rw [eraseDups_concat_of_mem hold, ← he.names]
        exact hnames
    · have hadd := he.wellFormed.entries_register_perm hr
      exact hadd.trans (he.entries.append_right _)

theorem exact_ofCalls (calls : List (Text × Int)) : (ofCalls calls).Exact := by
  induction calls using List.reverseRecOn with
  | nil => exact exact_empty
  | append_singleton calls call ih =>
    rw [ofCalls_concat]
    exact ih.ask call

theorem Exact.fault_iff {h : History} (he : h.Exact) (name : Text) (location : Int) :
    (∃ f, h.registry.register name location = .error f) ↔
      ∃ c ∈ h.admitted, ProcessName.Clash c.1 name := by
  constructor
  · rintro ⟨f, hf⟩
    obtain ⟨e, hm, hclash⟩ := he.wellFormed.clash_of_register hf
    exact ⟨e, he.entries.mem_iff.mp hm, hclash⟩
  · rintro ⟨c, hm, hclash⟩
    cases hr : h.registry.register name location with
    | error f => exact ⟨f, rfl⟩
    | ok r =>
      have hentry := he.entries.mem_iff.mpr hm
      exact absurd hclash (he.wellFormed.not_clash_of_register hr c hentry)

end History

/-- After any calls, a name is rejected as a duplicate exactly if it clashes with one that was
admitted before, and then nothing changes. The processes are named by the top parts of the admitted
names, each one once and in the order in which they came first. A plain process has one slot of its
own name, the slots of a split one have different names, and each admitted name has its slot. -/
theorem admission_exact (calls : List (Text × Int)) :
    let h := History.ofCalls calls
    (∀ name location,
      ((∃ f, h.registry.register name location = .error f) ↔
        ∃ c ∈ h.admitted, ProcessName.Clash c.1 name) ∧
      (∀ f, h.registry.register name location = .error f →
        f = .duplicateProcess name ∧ History.ofCalls (calls ++ [(name, location)]) = h) ∧
      ∀ r, h.registry.register name location = .ok r →
        History.ofCalls (calls ++ [(name, location)]) = ⟨r, h.admitted ++ [(name, location)]⟩) ∧
    (h.registry.processes.map Process.name).Nodup ∧
    h.registry.processes.map Process.name =
      (h.admitted.map fun c => Text.before 46 c.1).eraseDups ∧
    (∀ p ∈ h.registry.processes, p.slots ≠ [] ∧
      (p.split = false → ∃ location, p.slots = [⟨p.name, location⟩]) ∧
      (p.split = true → (p.slots.map Slot.name).Nodup)) ∧
    h.registry.entries.Perm h.admitted ∧
    (h.registry.processes.map fun p => p.slots.length).sum = h.admitted.length := by
  intro h
  have he : h.Exact := History.exact_ofCalls calls
  refine ⟨?_, he.wellFormed.nodup, he.names, ?_, he.entries, ?_⟩
  · intro name location
    rw [History.ofCalls_concat]
    refine ⟨he.fault_iff name location, ?_, ?_⟩
    · intro f hf
      exact ⟨(register_fault hf).1, History.ask_fault hf⟩
    · intro r hr
      exact History.ask_ok hr
  · intro p hp
    exact ⟨he.wellFormed.slots p hp, he.slots.plain p hp, he.slots.parts p hp⟩
  · rw [← length_entries]
    exact he.entries.length_eq

end BarrelAsm.Registry
