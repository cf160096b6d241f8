import BarrelAsm.Process.Schedule
import BarrelAsm.Proofs.Order
import Mathlib.Data.List.Nodup
import Mathlib.Data.List.Perm.Basic
import Mathlib.Data.List.TakeWhile
import Mathlib.Tactic.SplitIfs

/-! What registering and ordering do to a registry, and what holds of every registry they make. -/
namespace BarrelAsm

namespace Text

theorem before_append_after? (sep : UInt8) (t : Text) :
    before sep t ++ ((after? sep t).map (sep :: ·)).getD [] = t := by
  induction t with
  | nil => rfl
  | cons b bs ih =>
    by_cases hb : b = sep
    · subst b
      simp [before, after?, List.takeWhile, List.dropWhile]
    · unfold before after? at ih ⊢
      rw [List.takeWhile_cons_of_pos (by simpa using hb),
        List.dropWhile_cons_of_pos (by simpa using hb), List.cons_append, ih]

theorem notMem_before (sep : UInt8) (t : Text) : sep ∉ before sep t := by
  intro h
  have hp := List.all_eq_true.mp List.all_takeWhile sep h
  simp at hp

theorem before_of_notMem {sep : UInt8} {t : Text} (h : sep ∉ t) : before sep t = t := by
  refine List.takeWhile_eq_self_iff.mpr fun b hb => ?_
  simpa using fun he : b = sep => h (he ▸ hb)

theorem before_append_sep {sep : UInt8} {t : Text} (u : Text) (h : sep ∉ t) :
    before sep (t ++ sep :: u) = t := by
  unfold before
  rw [List.takeWhile_append_of_pos]
  · simp
  · intro b hb
    simpa using fun he : b = sep => h (he ▸ hb)

theorem after?_eq_none_iff {sep : UInt8} {t : Text} : after? sep t = none ↔ sep ∉ t := by
  have hparts := before_append_after? sep t
  constructor
  · intro h
    have hbefore : before sep t = t := by simpa [h] using hparts
    rw [← hbefore]
    exact notMem_before sep t
  · intro h
    cases ha : after? sep t with
    | none => rfl
    | some part =>
      rw [ha] at hparts
      rw [← hparts] at h
      simp at h

/-- Where the parts on the left have no separator, they are the same, and so are those on the
right. -/
theorem append_sep_inj {sep : UInt8} {a b c d : Text} (ha : sep ∉ a) (hb : sep ∉ b)
    (h : a ++ sep :: c = b ++ sep :: d) : a = b ∧ c = d := by
  induction a generalizing b with
  | nil =>
    cases b with
    | nil => exact ⟨rfl, (List.cons.inj h).2⟩
    | cons y ys =>
      obtain ⟨rfl, -⟩ := List.cons.inj h
      simp at hb
  | cons x xs ih =>
    cases b with
    | nil =>
      obtain ⟨rfl, -⟩ := List.cons.inj h
      simp at ha
    | cons y ys =>
      obtain ⟨rfl, ht⟩ := List.cons.inj h
      obtain ⟨rfl, rfl⟩ := ih (fun hm => ha (List.mem_cons_of_mem _ hm))
        (fun hm => hb (List.mem_cons_of_mem _ hm)) ht
      exact ⟨rfl, rfl⟩

theorem append_sep_inj_right {sep : UInt8} {a b c d : Text} (hc : sep ∉ c) (hd : sep ∉ d)
    (h : a ++ sep :: c = b ++ sep :: d) : a = b ∧ c = d := by
  have hr : c.reverse ++ sep :: a.reverse = d.reverse ++ sep :: b.reverse := by
    simpa using congrArg List.reverse h
  obtain ⟨hcd, hab⟩ := append_sep_inj (by simpa using hc) (by simpa using hd) hr
  exact ⟨List.reverse_inj.mp hab, List.reverse_inj.mp hcd⟩

end Text

section FirstOccurrences

variable {α : Type} [BEq α] [LawfulBEq α] {a : α} {l : List α}

theorem eraseDups_concat_of_mem (h : a ∈ l) : (l ++ [a]).eraseDups = l.eraseDups := by
  rw [List.eraseDups_append]
  simp [List.removeAll, h]

theorem eraseDups_concat_of_notMem (h : a ∉ l) : (l ++ [a]).eraseDups = l.eraseDups ++ [a] := by
  rw [List.eraseDups_append]
  simp [List.removeAll, h, List.eraseDups_cons]

end FirstOccurrences

/-- Two names for processes that cannot stand side by side: they are the same, or they have the same
part before the first dot and one of them has no dot. -/
def ProcessName.Clash (m n : Text) : Prop :=
  m = n ∨ (Text.before 46 m = Text.before 46 n ∧ ((46 : UInt8) ∉ m ∨ (46 : UInt8) ∉ n))

/-- The name that a slot is declared under. -/
def Process.fullName (p : Process) (s : Slot) : Text :=
  if p.split then p.name ++ 46 :: s.name else p.name

/-- The first slot of a process is declared under the name that makes the process. -/
theorem Process.fullName_new (name : Text) (location : Int) :
    fullName ⟨Text.before 46 name, (Text.after? 46 name).isSome,
      [⟨(Text.after? 46 name).getD (Text.before 46 name), location⟩]⟩
      ⟨(Text.after? 46 name).getD (Text.before 46 name), location⟩ = name := by
  have hname := Text.before_append_after? 46 name
  cases ha : Text.after? 46 name <;> simpa [fullName, ha] using hname

theorem Process.fullName_part {p : Process} {name part : Text} (htop : p.name = Text.before 46 name)
    (hs : p.split = true) (ha : Text.after? 46 name = some part) (location : Int) :
    p.fullName ⟨part, location⟩ = name := by
  rw [fullName, if_pos hs, htop]
  simpa [ha] using Text.before_append_after? 46 name

namespace Registry

/-- The declared names of all slots with their locations. -/
def entries (r : Registry) : List (Text × Int) :=
  r.processes.flatMap fun p => p.slots.map fun s => (p.fullName s, s.location)

theorem mem_entries {r : Registry} {e : Text × Int} :
    e ∈ r.entries ↔ ∃ p ∈ r.processes, ∃ s ∈ p.slots, (p.fullName s, s.location) = e := by
  simp [entries]

/-- A registry that was built up from nothing. -/
inductive Reachable : Registry → Prop where
  | empty : Reachable {}
  | register {r r' : Registry} {name : Text} {location : Int} (hr : Reachable r)
      (h : r.register name location = .ok r') : Reachable r'
  | finalize {r : Registry} (hr : Reachable r) : Reachable r.finalize

/-- Each process has its own name, which has no dot, and at least one slot. -/
structure WellFormed (r : Registry) : Prop where
  nodup : (r.processes.map Process.name).Nodup
  dotless : ∀ p ∈ r.processes, (46 : UInt8) ∉ p.name
  slots : ∀ p ∈ r.processes, p.slots ≠ []

/-- A name that is accepted makes a new process or a new part of a split one. -/
theorem register_ok {r r' : Registry} {name : Text} {location : Int}
    (h : r.register name location = .ok r') :
    (r.find? (Text.before 46 name) = none ∧
      r' = ⟨r.processes ++ [⟨Text.before 46 name, (Text.after? 46 name).isSome,
        [⟨(Text.after? 46 name).getD (Text.before 46 name), location⟩]⟩]⟩) ∨
      ∃ p part, r.find? (Text.before 46 name) = some p ∧ Text.after? 46 name = some part ∧
        p.split = true ∧ (∀ s ∈ p.slots, s.name ≠ part) ∧
        r' = r.addSlot (Text.before 46 name) ⟨part, location⟩ := by
  unfold register ProcessName.split at h
  cases hf : r.find? (Text.before 46 name) with
  | none =>
    cases ha : Text.after? 46 name <;> simp only [hf, ha] at h <;> cases h <;>
      exact .inl ⟨rfl, rfl⟩
  | some p =>
    cases ha : Text.after? 46 name with
    | none => simp [hf, ha] at h
    | some part =>
      simp only [hf, ha] at h
      split_ifs at h with hc
      cases h
      simp only [Bool.and_eq_true, Bool.not_eq_true', List.any_eq_false, beq_iff_eq] at hc
      exact .inr ⟨p, part, rfl, rfl, hc.1, hc.2, rfl⟩

/-- A name is rejected if it is plain, or the process is, or the part is there already. -/
theorem register_fault {r : Registry} {name : Text} {location : Int} {f : Fault}
    (h : r.register name location = .error f) :
    f = .duplicateProcess name ∧ ∃ p, r.find? (Text.before 46 name) = some p ∧
      (Text.after? 46 name = none ∨ p.split = false ∨
        p.split = true ∧ ∃ s ∈ p.slots, Text.after? 46 name = some s.name) := by
  unfold register ProcessName.split at h
  cases hf : r.find? (Text.before 46 name) with
  | none => cases ha : Text.after? 46 name <;> simp [hf, ha] at h
  | some p =>
    cases ha : Text.after? 46 name with
    | none =>
      simp only [hf, ha] at h
      cases h
      exact ⟨rfl, p, rfl, .inl rfl⟩
    | some part =>
      simp only [hf, ha] at h
      split_ifs at h with hc
      cases h
      refine ⟨rfl, p, rfl, .inr ?_⟩
      by_cases hsplit : p.split = true
      · have hany : p.slots.any (·.name == part) = true := by simpa [hsplit] using hc
        obtain ⟨s, hs, heq⟩ := List.any_eq_true.mp hany
        exact .inr ⟨hsplit, s, hs, by rw [eq_of_beq heq]⟩
      · exact .inl (by simpa using hsplit)

theorem name_of_find? {r : Registry} {top : Text} {p : Process} (h : r.find? top = some p) :
    p ∈ r.processes ∧ p.name = top :=
  ⟨List.mem_of_find?_eq_some h, by simpa using List.find?_some h⟩

theorem name_ne_of_find?_none {r : Registry} {top : Text} (h : r.find? top = none) :
    ∀ p ∈ r.processes, p.name ≠ top := by
  intro p hp
  simpa using List.find?_eq_none.mp h p hp

theorem map_name_addSlot (r : Registry) (top : Text) (s : Slot) :
    (r.addSlot top s).processes.map Process.name = r.processes.map Process.name := by
  simp only [addSlot, List.map_map]
  refine List.map_congr_left fun p _ => ?_
  simp only [Function.comp_apply]
  split_ifs <;> rfl

theorem mem_addSlot {r : Registry} {top : Text} {s : Slot} {q : Process} :
    q ∈ (r.addSlot top s).processes ↔
      ∃ p ∈ r.processes, q = if p.name = top then { p with slots := p.slots ++ [s] } else p := by
  simp only [addSlot, List.mem_map, eq_comm]

theorem WellFormed.register {r r' : Registry} {name : Text} {location : Int} (hr : r.WellFormed)
    (h : r.register name location = .ok r') : r'.WellFormed := by
  rcases register_ok h with ⟨hf, rfl⟩ | ⟨p, part, -, -, -, -, rfl⟩
  · refine ⟨?_, ?_, ?_⟩
    · rw [List.map_append]
      refine List.nodup_append.mpr ⟨hr.nodup, List.nodup_singleton _, ?_⟩
      intro n hn m hm
      obtain ⟨q, hq, rfl⟩ := List.mem_map.mp hn
      rw [List.mem_singleton.mp hm]
      exact name_ne_of_find?_none hf q hq
    · intro q hq
      rcases List.mem_append.mp hq with hq | hq
      · exact hr.dotless q hq
      · rw [List.mem_singleton.mp hq]
        exact Text.notMem_before 46 name
    · intro q hq
      rcases List.mem_append.mp hq with hq | hq
      · exact hr.slots q hq
      · rw [List.mem_singleton.mp hq]
        exact List.cons_ne_nil _ _
  · refine ⟨?_, ?_, ?_⟩
    · rw [map_name_addSlot]
      exact hr.nodup
    · intro q hq
      obtain ⟨p, hp, rfl⟩ := mem_addSlot.mp hq
      split_ifs
      · exact hr.dotless p hp
      · exact hr.dotless p hp
    · intro q hq
      obtain ⟨p, hp, rfl⟩ := mem_addSlot.mp hq
      split_ifs
      · simp
      · exact hr.slots p hp

theorem WellFormed.finalize {r : Registry} (hr : r.WellFormed) : r.finalize.WellFormed := by
  refine ⟨?_, ?_, ?_⟩
  · have hmap : r.finalize.processes.map Process.name = r.processes.map Process.name := by
      simp [Registry.finalize, List.map_map, Function.comp_def]
    rw [hmap]
    exact hr.nodup
  · intro q hq
    obtain ⟨p, hp, rfl⟩ := List.mem_map.mp hq
    exact hr.dotless p hp
  · intro q hq
    obtain ⟨p, hp, rfl⟩ := List.mem_map.mp hq
    intro (hn : Order.sort Slot.startsBefore p.slots = [])
    have hperm := Order.sort_perm Slot.startsBefore p.slots
    rw [hn] at hperm
    exact hr.slots p hp hperm.symm.eq_nil

theorem wellFormed_empty : ({} : Registry).WellFormed :=
  ⟨List.nodup_nil, by simp, by simp⟩

theorem Reachable.wellFormed {r : Registry} (h : r.Reachable) : r.WellFormed := by
  induction h with
  | empty => exact wellFormed_empty
  | register _ h ih => exact ih.register h
  | finalize _ ih => exact ih.finalize

theorem WellFormed.eq_of_name {r : Registry} (hr : r.WellFormed) {p q : Process}
    (hp : p ∈ r.processes) (hq : q ∈ r.processes) (h : p.name = q.name) : p = q :=
  List.inj_on_of_nodup_map hr.nodup hp hq h

theorem addSlot_append {l₁ l₂ : List Process} {p : Process} {s : Slot}
    (h₁ : ∀ q ∈ l₁, q.name ≠ p.name) (h₂ : ∀ q ∈ l₂, q.name ≠ p.name) :
    addSlot ⟨l₁ ++ p :: l₂⟩ p.name s = ⟨l₁ ++ { p with slots := p.slots ++ [s] } :: l₂⟩ := by
  have hid : ∀ l : List Process, (∀ q ∈ l, q.name ≠ p.name) →
      (l.map fun q => if q.name = p.name then { q with slots := q.slots ++ [s] } else q) = l := by
    intro l hl
    rw [List.map_congr_left fun q hq => if_neg (hl q hq), List.map_id']
  simp only [addSlot, List.map_append, List.map_cons, hid l₁ h₁, hid l₂ h₂, if_true]

/-- Registering adds one entry, under the name given. -/
theorem WellFormed.entries_register_perm {r r' : Registry} {name : Text} {location : Int}
    (hr : r.WellFormed) (h : r.register name location = .ok r') :
    r'.entries.Perm (r.entries ++ [(name, location)]) := by
  rcases register_ok h with ⟨-, rfl⟩ | ⟨p, part, hf, ha, hs, -, rfl⟩
  · simp [entries, Process.fullName_new]
  · obtain ⟨hp, htop⟩ := name_of_find? hf
    have hlast := Process.fullName_part htop hs ha location
    obtain ⟨processes⟩ := r
    obtain ⟨l₁, l₂, rfl⟩ := List.append_of_mem hp
    -- Names are distinct, so that only this process gets the slot.
    have hnodup : ((l₁ ++ p :: l₂).map Process.name).Nodup := hr.nodup
    rw [List.map_append, List.map_cons, List.nodup_middle, List.nodup_cons, List.mem_append,
      not_or] at hnodup
    obtain ⟨⟨h₁, h₂⟩, -⟩ := hnodup
    have hadd := addSlot_append (s := ⟨part, location⟩)
      (fun q hq he => h₁ (he ▸ List.mem_map_of_mem hq))
      (fun q hq he => h₂ (he ▸ List.mem_map_of_mem hq))
    rw [← htop, hadd]
    have hslots : ∀ s, Process.fullName { p with slots := p.slots ++ [⟨part, location⟩] } s =
        p.fullName s := fun _ => rfl
    simp only [entries, List.flatMap_append, List.flatMap_cons, List.map_append, List.map_cons,
      List.map_nil, hslots, hlast, List.append_assoc]
    refine List.Perm.append_left _ (List.Perm.append_left _ ?_)
    exact List.perm_append_comm

/-- Registering adds an entry under the name given, and no other. -/
theorem WellFormed.mem_entries_register {r r' : Registry} {name : Text} {location : Int}
    (hr : r.WellFormed) (h : r.register name location = .ok r') (e : Text × Int) :
    e ∈ r'.entries ↔ e ∈ r.entries ∨ e = (name, location) := by
  rw [(hr.entries_register_perm h).mem_iff, List.mem_append, List.mem_singleton]

theorem WellFormed.before_fullName {r : Registry} (hr : r.WellFormed) {p : Process}
    (hp : p ∈ r.processes) (s : Slot) : Text.before 46 (p.fullName s) = p.name := by
  unfold Process.fullName
  split_ifs
  · exact Text.before_append_sep s.name (hr.dotless p hp)
  · exact Text.before_of_notMem (hr.dotless p hp)

/-- The processes are named by what is before the dot in their entries. -/
theorem WellFormed.mem_names_iff {r : Registry} (hr : r.WellFormed) (top : Text) :
    top ∈ r.processes.map Process.name ↔ ∃ e ∈ r.entries, Text.before 46 e.1 = top := by
  constructor
  · intro h
    obtain ⟨p, hp, rfl⟩ := List.mem_map.mp h
    obtain ⟨s, ss, hs⟩ := List.exists_cons_of_ne_nil (hr.slots p hp)
    refine ⟨(p.fullName s, s.location), mem_entries.mpr ⟨p, hp, s, ?_, rfl⟩, ?_⟩
    · rw [hs]
      exact List.mem_cons_self
    · exact hr.before_fullName hp s
  · rintro ⟨e, he, rfl⟩
    obtain ⟨p, hp, s, -, rfl⟩ := mem_entries.mp he
    rw [hr.before_fullName hp s]
    exact List.mem_map_of_mem hp

/-- What is accepted clashes with no name in use. -/
theorem WellFormed.not_clash_of_register {r r' : Registry} {name : Text} {location : Int}
    (hr : r.WellFormed) (h : r.register name location = .ok r') :
    ∀ e ∈ r.entries, ¬ProcessName.Clash e.1 name := by
  intro e he hclash
  obtain ⟨p, hp, s, hs, rfl⟩ := mem_entries.mp he
  have htop : p.name = Text.before 46 name := by
    rw [← hr.before_fullName hp s]
    rcases hclash with heq | ⟨htop, -⟩
    · exact congrArg (Text.before 46) heq
    · exact htop
  rcases register_ok h with ⟨hf, -⟩ | ⟨q, part, hf, ha, hsplit, hfresh, -⟩
  · exact name_ne_of_find?_none hf p hp htop
  · obtain ⟨hq, hqn⟩ := name_of_find? hf
    obtain rfl : p = q := hr.eq_of_name hp hq (htop.trans hqn.symm)
    have hname : name = p.name ++ 46 :: part := by
      rw [htop]
      simpa [ha] using (Text.before_append_after? 46 name).symm
    have hfull : p.fullName s = p.name ++ 46 :: s.name := by rw [Process.fullName, if_pos hsplit]
    rw [hname, hfull] at hclash
    rcases hclash with heq | ⟨-, hdot | hdot⟩
    · have hpart : s.name = part := (List.cons.inj (List.append_cancel_left heq)).2
      exact hfresh s hs hpart
    · simp at hdot
    · simp at hdot

/-- What is rejected clashes with a name in use. -/
theorem WellFormed.clash_of_register {r : Registry} {name : Text} {location : Int} {f : Fault}
    (hr : r.WellFormed) (h : r.register name location = .error f) :
    ∃ e ∈ r.entries, ProcessName.Clash e.1 name := by
  obtain ⟨-, p, hf, hreject⟩ := register_fault h
  obtain ⟨hp, htop⟩ := name_of_find? hf
  have hentry : ∀ s ∈ p.slots, (p.fullName s, s.location) ∈ r.entries := by
    intro s hs
    exact mem_entries.mpr ⟨p, hp, s, hs, rfl⟩
  have hsame : ∀ s, Text.before 46 (p.fullName s) = Text.before 46 name := by
    intro s
    rw [hr.before_fullName hp s, htop]
  obtain ⟨s, hs⟩ := List.exists_mem_of_ne_nil _ (hr.slots p hp)
  rcases hreject with ha | hsplit | ⟨hsplit, u, hu, ha⟩
  · have hdot : (46 : UInt8) ∉ name := Text.after?_eq_none_iff.mp ha
    exact ⟨_, hentry s hs, .inr ⟨hsame s, .inr hdot⟩⟩
  · have hfull : p.fullName s = p.name := by simp [Process.fullName, hsplit]
    have hdot : (46 : UInt8) ∉ p.fullName s := by
      rw [hfull]
      exact hr.dotless p hp
    exact ⟨_, hentry s hs, .inr ⟨hsame s, .inl hdot⟩⟩
  · exact ⟨_, hentry u hu, .inl (Process.fullName_part htop hsplit ha u.location)⟩

/-- A name that is accepted was not in use. -/
theorem WellFormed.notMem_entries_of_register {r r' : Registry} {name : Text} {location : Int}
    (hr : r.WellFormed) (h : r.register name location = .ok r') (l : Int) :
    (name, l) ∉ r.entries := by
  intro hm
  exact hr.not_clash_of_register h _ hm (.inl rfl)

theorem entries_finalize_perm (r : Registry) : r.finalize.entries.Perm r.entries := by
  unfold entries Registry.finalize
  rw [List.flatMap_map]
  refine List.Perm.flatMap_left _ fun p _ => ?_
  exact (Order.sort_perm Slot.startsBefore p.slots).map _

theorem mem_entries_finalize {r : Registry} {e : Text × Int} :
    e ∈ r.finalize.entries ↔ e ∈ r.entries :=
  (entries_finalize_perm r).mem_iff

end Registry
end BarrelAsm
