import BarrelAsm.Proofs.Address
import BarrelAsm.Proofs.Admission
import BarrelAsm.Proofs.Allocation
import BarrelAsm.Proofs.Nesting
import BarrelAsm.Proofs.StableSort

/-! The order of slots. A registry that is finalized has the slots of each process in the order of
their locations, and those at one location as they were registered. The first pass registers slots
at locations that never go down, so that finalizing changes nothing then. -/
namespace BarrelAsm

/-- A slot at a non-negative 64-bit integer. -/
def Slot.Located (s : Slot) : Prop := 0 ≤ s.location ∧ s.location < 2 ^ 63

theorem Slot.startsBefore_iff {s t : Slot} (hs : s.Located) (ht : t.Located) :
    s.startsBefore t = true ↔ s.location < t.location := by
  obtain ⟨hs0, hs⟩ := hs
  obtain ⟨ht0, ht⟩ := ht
  -- The difference of two such numbers does not wrap.
  have hsub : Arith.sub s.location t.location = s.location - t.location :=
    Arith.wrap_of_natAbs_lt (by omega)
  rw [startsBefore, hsub, decide_eq_true_eq]
  omega

/-- The declared names of the slots with their locations. -/
def Process.entries (p : Process) : List (Text × Int) :=
  p.slots.map fun s => (p.fullName s, s.location)

namespace Registry

variable {r r' : Registry} {name : Text} {location : Int} {calls : List (Text × Int)}

def Located (r : Registry) : Prop := ∀ p ∈ r.processes, ∀ s ∈ p.slots, s.Located

theorem Located.stableSort (h : r.Located) {p : Process} (hp : p ∈ r.processes) :
    Order.StableSort Slot.location p.slots (Order.sort Slot.startsBefore p.slots) :=
  Order.sort_stable (fun _ _ => Slot.startsBefore_iff) (h p hp)

theorem Located.finalize (h : r.Located) : r.finalize.Located := by
  intro q hq s hs
  obtain ⟨p, hp, rfl⟩ := List.mem_map.mp hq
  exact h p hp s ((Order.sort_perm Slot.startsBefore p.slots).mem_iff.mp hs)

theorem Located.finalize_eq_self (h : r.Located)
    (ha : ∀ p ∈ r.processes, Order.Ascending Slot.location p.slots) : r.finalize = r := by
  have hid : ∀ p ∈ r.processes, { p with slots := Order.sort Slot.startsBefore p.slots } = p := by
    intro p hp
    rw [Order.sort_eq_self (fun _ _ => Slot.startsBefore_iff) (h p hp) (ha p hp)]
  unfold Registry.finalize
  rw [List.map_congr_left hid, List.map_id']

theorem Located.finalize_finalize (h : r.Located) : r.finalize.finalize = r.finalize := by
  refine h.finalize.finalize_eq_self fun q hq => ?_
  obtain ⟨p, hp, rfl⟩ := List.mem_map.mp hq
  exact (h.stableSort hp).ascending

/-- Each process has those of the calls that name it, in the order in which they were made. -/
def Grouped (r : Registry) (calls : List (Text × Int)) : Prop :=
  ∀ p ∈ r.processes, p.entries = calls.filter fun c => Text.before 46 c.1 = p.name

theorem filter_concat_other {top : Text} (h : Text.before 46 name ≠ top) :
    (calls ++ [(name, location)]).filter (fun c => Text.before 46 c.1 = top) =
      calls.filter fun c => Text.before 46 c.1 = top := by
  simp [h]

theorem filter_concat_same {top : Text} (h : Text.before 46 name = top) :
    (calls ++ [(name, location)]).filter (fun c => Text.before 46 c.1 = top) =
      (calls.filter fun c => Text.before 46 c.1 = top) ++ [(name, location)] := by
  simp [h]

theorem Grouped.register (hg : r.Grouped calls) (hr : r.WellFormed)
    (hnames : ∀ top, top ∈ r.processes.map Process.name ↔
      top ∈ calls.map fun c => Text.before 46 c.1)
    (h : r.register name location = .ok r') : r'.Grouped (calls ++ [(name, location)]) := by
  intro q hq
  rcases register_ok h with ⟨hf, rfl⟩ | ⟨p, part, hf, ha, hs, -, rfl⟩
  · rcases List.mem_append.mp hq with hq | hq
    · rw [filter_concat_other (name_ne_of_find?_none hf q hq).symm]
      exact hg q hq
    · obtain rfl := List.mem_singleton.mp hq
      -- The process is new, so that no call before this one names it.
      have hnone : calls.filter (fun c => Text.before 46 c.1 = Text.before 46 name) = [] := by
        refine List.filter_eq_nil_iff.mpr fun c hc => ?_
        have hmem := (hnames _).mpr (List.mem_map_of_mem hc)
        obtain ⟨p, hp, hpn⟩ := List.mem_map.mp hmem
        simpa [← hpn] using name_ne_of_find?_none hf p hp
      rw [filter_concat_same rfl, hnone, Process.entries, List.map_singleton,
        Process.fullName_new]
      rfl
  · obtain ⟨hp, htop⟩ := name_of_find? hf
    obtain ⟨q, hm, rfl⟩ := mem_addSlot.mp hq
    by_cases hqn : q.name = Text.before 46 name
    · obtain rfl : q = p := hr.eq_of_name hm hp (hqn.trans htop.symm)
      rw [if_pos hqn, filter_concat_same hqn.symm, ← hg q hm]
      have hlast := Process.fullName_part hqn hs ha location
      simp only [Process.entries, List.map_append, List.map_singleton, ← hlast]
      rfl
    · rw [if_neg hqn, filter_concat_other (Ne.symm hqn)]
      exact hg q hm

theorem History.grouped_ofCalls (calls : List (Text × Int)) :
    (ofCalls calls).registry.Grouped (ofCalls calls).admitted := by
  induction calls using List.reverseRecOn with
  | nil => exact fun p hp => absurd hp List.not_mem_nil
  | append_singleton calls call ih =>
    have he := exact_ofCalls calls
    rw [ofCalls_concat]
    cases hr : (ofCalls calls).registry.register call.1 call.2 with
    | error f =>
      rw [ask_fault hr]
      exact ih
    | ok r =>
      rw [ask_ok hr]
      exact ih.register he.wellFormed he.mem_names_iff hr

/-- The entries of a registry are the calls that it admitted, process by process. -/
theorem History.entries_ofCalls (calls : List (Text × Int)) :
    (ofCalls calls).registry.entries =
      ((ofCalls calls).admitted.map fun c => Text.before 46 c.1).eraseDups.flatMap fun top =>
        (ofCalls calls).admitted.filter fun c => Text.before 46 c.1 = top := by
  rw [← (exact_ofCalls calls).names, List.flatMap_map]
  exact List.flatMap_congr (grouped_ofCalls calls)

theorem starts_eq_map_entries (r : Registry) : r.starts = r.entries.map Prod.snd := by
  simp [starts, entries, List.map_flatMap, Function.comp_def]

end Registry

namespace Source

theorem location_of_mem_openings {lines : List Line} {o : Text × Int} (h : o ∈ openings lines) :
    0 ≤ o.2 ∧ o.2 ≤ size lines := by
  obtain ⟨s, hs, ho⟩ := List.mem_filterMap.mp h
  obtain ⟨name, -, rfl⟩ := Option.map_eq_some_iff.mp ho
  obtain ⟨pre, hp, ha, -⟩ := mem_sites_iff.mp hs
  have hle := size_mono ((List.prefix_append _ _).trans hp)
  dsimp only
  omega

theorem openings_ascending (lines : List Line) : Order.Ascending Prod.snd (openings lines) := by
  induction lines using List.reverseRecOn with
  | nil => exact List.Pairwise.nil
  | append_singleton ls l ih =>
    rw [openings_concat]
    refine List.pairwise_append.mpr ⟨ih, ?_, fun o ho o' ho' => ?_⟩
    · cases l.opens? <;> simp
    · obtain ⟨name, -, rfl⟩ := Option.map_eq_some_iff.mp (Option.mem_toList.mp ho')
      exact (location_of_mem_openings ho).2

theorem size_le (lines : List Line) : size lines ≤ 3 * lines.length := by
  induction lines with
  | nil => rfl
  | cons l ls ih =>
    have := l.size_le
    rw [size_cons, List.length_cons]
    omega

end Source

namespace Assembly

variable {a b one : Assembly} {line : Line} {lines : List Line} {constants : Constants} {n : Nat}
  {f : Fault}

/-- The first pass makes a call for each line that opens a process, and none is rejected. -/
theorem firstPass_history (h : runLines firstPass lines (initial constants n) = (a, none)) :
    Registry.History.ofCalls (Source.openings lines) = ⟨a.processes, Source.openings lines⟩ := by
  refine runLines_induction (P := fun ls x =>
    Registry.History.ofCalls (Source.openings ls) = ⟨x.processes, Source.openings ls⟩) h rfl ?_
  intro pre line c d _ hrun hc hd
  obtain ⟨hpc, -⟩ := firstPass_place hrun
  rw [Source.openings_concat]
  rcases firstPass_processes hd with ⟨ho, he⟩ | ⟨name, ho, -, hr⟩
  · rw [ho, he]
    simpa using hc
  · rw [ho, ← hpc, Option.map_some, Option.toList_some, Registry.History.ofCalls_concat, hc]
    exact Registry.History.ask_ok hr

theorem defineLabels_processes (ls : List Text) (a : Assembly) :
    (defineLabels ls a).1.processes = a.processes := by
  induction ls generalizing a with
  | nil => rfl
  | cons l ls ih =>
    rw [defineLabels_cons]
    rcases hl : a.defineLabel l with ⟨b, _ | f⟩
    · obtain ⟨symbols, -, rfl⟩ := Outcome.update_ok (a.defineLabel_eq l ▸ hl)
      exact ih _
    · rw [defineLabel_fault hl]

/-- A line that fails registers nothing. -/
theorem firstPass_fault_processes (h : firstPass line a = (b, some f)) :
    b.processes = a.processes := by
  rw [firstPass_eq] at h
  split at h
  · cases h
  · rename_i s _
    have hlabels := defineLabels_processes s.labels (a.visit line)
    split at h
    · rename_i c hc
      rw [hc] at hlabels
      rw [declare_fault h]
      exact hlabels
    · rename_i c g hc
      rw [hc] at hlabels
      cases h
      exact hlabels

theorem secondPass_line_processes (line : Line) (a : Assembly) :
    (secondPass line a).1.processes = a.processes := by
  rcases secondPass_tables line a with h | ⟨-, -, _, -, h⟩
  · exact congrArg Tables.processes h
  · exact congrArg Tables.processes h

/-- What comes after the first pass leaves a registry alone that is in order. -/
theorem run_processes {fault : Option (Line × Fault)}
    (hone : runLines firstPass lines (initial constants lines.length) = (one, fault))
    (hself : one.processes.finalize = one.processes) :
    (run constants lines).1.processes = one.processes := by
  have htwo : (runLines secondPass lines one.restart).1.processes = one.processes :=
    runLines_preserves (P := fun x => x.processes = one.processes)
      (fun line a ha => (secondPass_line_processes line a).trans ha) lines hself
  rw [run_eq, hone]
  cases fault with
  | some e => rfl
  | none =>
    dsimp only
    split
    · rfl
    · split
      · rename_i two l f h
        rw [h] at htwo
        exact htwo
      · rename_i two h
        rw [h] at htwo
        rw [finish_eq]
        split
        · exact htwo
        · exact htwo

theorem located_of_openings {reached : List Line} (hsize : Source.size reached < 2 ^ 63)
    (h : a.processes.Grouped (Source.openings reached)) : a.processes.Located := by
  intro p hp s hs
  have hmem : (p.fullName s, s.location) ∈ p.entries := List.mem_map_of_mem hs
  rw [h p hp] at hmem
  have hbounds := Source.location_of_mem_openings (List.mem_of_mem_filter hmem)
  exact ⟨hbounds.1, by dsimp only at hbounds; omega⟩

theorem ascending_of_openings {reached : List Line}
    (h : a.processes.Grouped (Source.openings reached)) :
    ∀ p ∈ a.processes.processes, Order.Ascending Slot.location p.slots := by
  intro p hp
  have hentries : Order.Ascending Prod.snd p.entries := by
    rw [h p hp]
    exact (Source.openings_ascending reached).sublist List.filter_sublist
  simpa [Order.Ascending, Process.entries, List.pairwise_map] using hentries

/-- The lines up to one that fails, or all, are those whose openings have been registered. -/
theorem exists_reached {fault : Option (Line × Fault)}
    (h : runLines firstPass lines (initial constants n) = (one, fault)) :
    ∃ reached, reached <+: lines ∧ (fault = none → reached = lines) ∧
      (∀ l f, fault = some (l, f) → reached ++ [l] <+: lines) ∧
      Registry.History.ofCalls (Source.openings reached) =
        ⟨one.processes, Source.openings reached⟩ := by
  cases fault with
  | none => exact ⟨lines, List.prefix_refl _, fun _ => rfl, by simp, firstPass_history h⟩
  | some e =>
    obtain ⟨l, f⟩ := e
    obtain ⟨pre, b, hp, hpre, hl⟩ := runLines_fault_at h
    refine ⟨pre, (List.prefix_append _ _).trans hp, by simp, ?_, ?_⟩
    · intro l' f' he
      cases he
      exact hp
    · rw [firstPass_fault_processes hl]
      exact firstPass_history hpre

end Assembly

/-- Finalizing keeps the processes in their places, with their names and kinds, and sorts the slots
of each one by location, in a stable way; to do it again changes nothing. The first pass registers
what the lines open in source order, up to a line that fails, at locations that never go down. As
long as addresses are 64-bit integers, finalizing leaves that registry as it is, and the start
locations of the program are those of the lines, process by process and in source order. -/
theorem slots_in_order (r : Registry) (constants : Constants) (lines : List Line) {one : Assembly}
    {fault : Option (Line × Fault)}
    (hone : runLines Assembly.firstPass lines (Assembly.initial constants lines.length) =
      (one, fault)) :
    (r.Located →
      r.finalize.processes.length = r.processes.length ∧
      (∀ (i : Nat) (p : Process), r.processes[i]? = some p → ∃ slots,
        r.finalize.processes[i]? = some ⟨p.name, p.split, slots⟩ ∧ slots.Perm p.slots ∧
        Order.StableSort Slot.location p.slots slots) ∧
      r.finalize.finalize = r.finalize) ∧
    ∃ reached, reached <+: lines ∧ (fault = none → reached = lines) ∧
      (∀ l f, fault = some (l, f) → reached ++ [l] <+: lines) ∧
      Registry.History.ofCalls (Source.openings reached) =
        ⟨one.processes, Source.openings reached⟩ ∧
      Order.Ascending Prod.snd (Source.openings reached) ∧
      (∀ p ∈ one.processes.processes, p.entries =
        (Source.openings reached).filter fun o => Text.before 46 o.1 = p.name) ∧
      one.processes.starts =
        (((Source.openings reached).map fun o => Text.before 46 o.1).eraseDups.flatMap fun top =>
          (Source.openings reached).filter fun o => Text.before 46 o.1 = top).map Prod.snd ∧
      (lines.length ≤ Listing.capacity → Source.size lines < 2 ^ 63) ∧
      (Source.size lines < 2 ^ 63 →
        one.processes.finalize = one.processes ∧
        (Assembly.run constants lines).1.processes = one.processes ∧
        ∀ a program, Assembly.run constants lines = (a, .ok program) →
          program.starts = one.processes.starts) := by
  refine ⟨fun hr => ⟨List.length_map _, fun i p hp => ?_, hr.finalize_finalize⟩, ?_⟩
  · refine ⟨Order.sort Slot.startsBefore p.slots, ?_, Order.sort_perm _ _,
      hr.stableSort (List.mem_of_getElem? hp)⟩
    rw [Registry.finalize, List.getElem?_map, hp]
    rfl
  · obtain ⟨reached, hprefix, hall, hfault, hcalls⟩ := Assembly.exists_reached hone
    have hgrouped := Registry.History.grouped_ofCalls (Source.openings reached)
    have hentries := Registry.History.entries_ofCalls (Source.openings reached)
    rw [hcalls] at hgrouped hentries
    refine ⟨reached, hprefix, hall, hfault, hcalls, Source.openings_ascending reached, hgrouped, ?_,
      ?_, fun hsize => ?_⟩
    · rw [Registry.starts_eq_map_entries, hentries]
    · intro hlines
      have hle := Source.size_le lines
      have hcapacity : Listing.capacity = 5864062014805 := rfl
      omega
    · have hreached := Source.size_mono hprefix
      have hlocated := Assembly.located_of_openings (by omega) hgrouped
      have hself := hlocated.finalize_eq_self (Assembly.ascending_of_openings hgrouped)
      have hrun := Assembly.run_processes hone hself
      refine ⟨hself, hrun, fun a program h => ?_⟩
      rw [h] at hrun
      obtain ⟨_, two, -, -, -, -, rfl, rfl⟩ := Assembly.run_ok h
      exact congrArg Registry.starts hrun

/-- A process of more parts than a block holds, out of order and two at each location. -/
def Registry.shuffled : Registry :=
  ⟨[⟨"w", true, (List.range 24).map fun k => ⟨[97 + UInt8.ofNat k], (7 * k % 12 : Nat)⟩⟩]⟩

theorem Registry.located_shuffled : shuffled.Located := by
  intro p hp s hs
  obtain rfl := List.mem_singleton.mp hp
  obtain ⟨k, -, rfl⟩ := List.mem_map.mp hs
  constructor
  · exact Int.natCast_nonneg _
  · dsimp only
    omega

theorem slots_in_order_sample :
    Registry.shuffled.finalize.finalize = Registry.shuffled.finalize ∧
    (∃ slots, Registry.shuffled.finalize.processes[0]? = some ⟨"w", true, slots⟩ ∧
      slots.filter (·.location = 5) = [⟨"l", 5⟩, ⟨"x", 5⟩]) ∧
    ∃ a program, Assembly.run {} (Line.ofTexts Source.sample) = (a, .ok program) ∧
      a.processes.finalize = a.processes ∧ program.starts = [0, 5, 8, 10, 10, 10, 10, 10] := by
  obtain ⟨a, program, h⟩ := Source.run_sample
  obtain ⟨one, two, hone, -⟩ := Assembly.run_ok h
  obtain ⟨hsort, reached, -, hall, -, -, -, -, hstarts, -, hparse⟩ :=
    slots_in_order Registry.shuffled {} _ hone
  obtain ⟨-, hslots, htwice⟩ := hsort Registry.located_shuffled
  obtain ⟨hself, hrun, hprogram⟩ := hparse (by decide +kernel)
  rw [h] at hrun
  obtain ⟨slots, hget, -, hstable⟩ := hslots 0 _ rfl
  refine ⟨htwice, ⟨slots, hget, ?_⟩, a, program, h, ?_, ?_⟩
  · rw [hstable.stable]
    decide +kernel
  · rw [hrun]
    exact hself
  · rw [hprogram a program h, hstarts, hall rfl]
    decide +kernel

end BarrelAsm
