import BarrelAsm.Proofs.Address
import BarrelAsm.Proofs.Latch
import BarrelAsm.Proofs.Numeral
import BarrelAsm.Proofs.Schedule

/-! The output files can be read back: each line is one number in hexadecimal. -/
namespace BarrelAsm

namespace Text

theorem newline_notMem_of_ofDigits? {t : Text} {n : Nat} (h : Numeral.ofDigits? 16 t = some n) :
    (10 : UInt8) ∉ t := by
  obtain ⟨-, ds, hds, -⟩ := Numeral.ofDigits?_eq_some_iff.mp h
  intro hm
  have hnone : none ∈ t.map Numeral.digit? := List.mem_map.mpr ⟨10, hm, by decide⟩
  rw [hds] at hnone
  simp at hnone

theorem newline_notMem_of_hexValue? {t : Text} {v : Int} (h : hexValue? t = some v) :
    (10 : UInt8) ∉ t := by
  unfold hexValue? at h
  split at h <;> obtain ⟨n, hn, -⟩ := Option.map_eq_some_iff.mp h
  · have hds := newline_notMem_of_ofDigits? hn
    simpa using hds
  · exact newline_notMem_of_ofDigits? hn

theorem splitLines_append {l : Text} (hl : (10 : UInt8) ∉ l) (u : Text) :
    splitLines (l ++ 10 :: u) = l :: splitLines u := by
  have hdrop : (l ++ 10 :: u).dropWhile (· != 10) = 10 :: u := by
    rw [List.dropWhile_append_of_pos]
    · simp
    · intro b hb
      simpa using fun he : b = 10 => hl (he ▸ hb)
  obtain ⟨b, bs, hcons⟩ : ∃ b bs, l ++ 10 :: u = b :: bs := List.exists_cons_of_ne_nil (by simp)
  have hsplit : splitLines (b :: bs) =
      before 10 (b :: bs) :: splitLines ((b :: bs).dropWhile (· != 10)).tail := by
    rw [splitLines]
  rw [hcons, hsplit, ← hcons, before_append_sep u hl, hdrop, List.tail_cons]

/-- Lines that were ended by a line feed each are the lines again. -/
theorem splitLines_flatten {lines : List Text} (h : ∀ l ∈ lines, (10 : UInt8) ∉ l) :
    splitLines (lines.map (· ++ [10])).flatten = lines := by
  induction lines with
  | nil => simp [splitLines]
  | cons l ls ih =>
    obtain ⟨hl, hls⟩ := List.forall_mem_cons.mp h
    rw [List.map_cons, List.flatten_cons, List.append_assoc, List.singleton_append,
      splitLines_append hl, ih hls]

end Text

namespace OutputFile

/-- The numbers in a file that holds one on each line. -/
def numbers? (content : Text) : Option (List Int) :=
  (Text.splitLines content).mapM Text.hexValue?

/-- The file of these lines, when it has this limit. -/
def written (limit : Option Nat) (lines : List Text) : Latch Sink :=
  Latch.writeUntilFault Sink.device ⟨{ limit }, none⟩ (lineChunks lines)

/-- The lines can be written, and a file that they were written to without a failure holds these
numbers. -/
def Recovers (lines : List Text) (xs : List Int) : Prop :=
  (written none lines).error = none ∧
    ∀ limit, (written limit lines).error = none →
      numbers? (written limit lines).state.content.toList = some xs

theorem recovers_map {α : Type} {f : α → Text} {g : α → Int}
    (h : ∀ x, Text.hexValue? (f x) = some (g x)) (xs : List α) :
    Recovers (xs.map f) (xs.map g) := by
  have hwritten : ∀ limit, written limit (xs.map f) =
      Latch.writeAll Sink.device ⟨{ limit }, none⟩ (lineChunks (xs.map f)) :=
    fun _ => Latch.writeUntilFault_eq _ _
  simp only [Recovers, hwritten]
  refine ⟨Latch.error_writeAll_of_unlimited rfl _, fun limit hw => ?_⟩
  have hlines : ∀ l ∈ xs.map f, (10 : UInt8) ∉ l := by
    intro l hl
    obtain ⟨x, -, rfl⟩ := List.mem_map.mp hl
    exact Text.newline_notMem_of_hexValue? (h x)
  have hread : Text.hexValue? ∘ f = fun x => pure (g x) := funext h
  rw [Latch.content_writeAll Sink.device_appends hw, List.nil_append, numbers?, lineChunks,
    Text.splitLines_flatten hlines, List.mapM_map, hread, List.mapM_pure]
  rfl

theorem recovers_hexInt (width : Nat) (xs : List Int) :
    Recovers (xs.map (Text.hexInt width)) xs := by
  have h := recovers_map (Text.hexValue?_hexInt width) xs
  rwa [List.map_id'] at h

end OutputFile

namespace Registry

variable {r : Registry}

theorem mem_starts_iff {location : Int} :
    location ∈ r.starts ↔ ∃ name, (name, location) ∈ r.entries := by
  simp [starts, entries]

theorem WellFormed.starts_of_sequence (hr : r.WellFormed) {location : Int}
    (h : location ∈ r.sequence) : location ∈ r.starts := by
  rw [sequence_eq_flatMap] at h
  obtain ⟨step, -, hstep⟩ := List.mem_flatMap.mp h
  obtain ⟨p, hp, rfl⟩ := List.mem_map.mp hstep
  obtain ⟨s, hs, hl⟩ := Process.exists_slot (hr.slots p hp) step
  exact List.mem_flatMap.mpr ⟨p, hp, List.mem_map.mpr ⟨s, List.mem_of_getElem? hs, hl.symm⟩⟩

end Registry

/-- A process starts at a word of its program or behind the last one. -/
theorem Assembly.location_of_run {constants : Constants} {lines : List Line} {a : Assembly}
    {program : Program} (h : Assembly.run constants lines = (a, .ok program)) {location : Int}
    (hl : location ∈ program.starts ∨ location ∈ program.sequence) :
    0 ≤ location ∧ location ≤ program.words.length := by
  obtain ⟨one, two, hone, -, htwo, -, rfl, rfl⟩ := Assembly.run_ok h
  have htables : two.processes = one.processes.finalize := secondPass_processes htwo
  have hlen : two.program.words.length = Source.size lines :=
    (secondPass_emitted (firstPass_opcodes hone) htwo).length_words
  have hstart : location ∈ one.processes.finalize.starts := by
    rw [← htables]
    rcases hl with hl | hl
    · exact hl
    · refine Registry.WellFormed.starts_of_sequence ?_ hl
      rw [htables]
      exact (firstPass_wellFormed hone).finalize
  obtain ⟨name, hname⟩ := Registry.mem_starts_iff.mp hstart
  rw [Registry.mem_entries_finalize, firstPass_entries hone] at hname
  obtain ⟨pre, line, ⟨post, rfl⟩, -, rfl⟩ := hname
  rw [hlen]
  simp only [Source.size_append]
  omega

open OutputFile in
/-- Whatever a program holds, its files can be written, and what was written without a failure is
read back as the words, bytes, registers and locations of the program. The lines of the first three
files have 8, 2 and 4 digits. Those of the locations have 4 as well, if the program was assembled
and its addresses fit into 16 bits. -/
theorem outputs_recovered (p : Program) :
    Recovers p.instructionLines (p.binary.map fun w => (w.toNat : Int)) ∧
    Recovers p.dataLines (p.data.toList.map fun b => (b.toNat : Int)) ∧
    Recovers p.registerLines (p.registers.toList.map fun r => (r.toNat : Int)) ∧
    Recovers p.startLines p.starts ∧
    Recovers p.sequenceLines p.sequence ∧
    (∀ l ∈ p.instructionLines, Text.HexDigits 8 l) ∧
    (∀ l ∈ p.dataLines, Text.HexDigits 2 l) ∧
    (∀ l ∈ p.registerLines, Text.HexDigits 4 l) ∧
    ∀ constants texts a, Assembly.run constants (Line.ofTexts texts) = (a, .ok p) →
      p.words.length ≤ 65535 → ∀ l ∈ p.startLines ++ p.sequenceLines, Text.HexDigits 4 l := by
  refine ⟨?_, recovers_map (fun b : UInt8 => Text.hexValue?_hexNat 2 b.toNat) _,
    recovers_map (fun r : UInt16 => Text.hexValue?_hexNat 4 r.toNat) _, recovers_hexInt 4 p.starts,
    recovers_hexInt 4 p.sequence, ?_, ?_, ?_, ?_⟩
  · rw [Program.binary_eq, List.map_map]
    exact recovers_map (fun w : Word => Text.hexValue?_hexNat 8 w.bits.toNat) _
  · intro l hl
    obtain ⟨w, -, rfl⟩ := List.mem_map.mp hl
    have hw := w.bits.toNat_lt
    exact Text.hexDigits_hexNat (by decide) (by omega)
  · intro l hl
    obtain ⟨b, -, rfl⟩ := List.mem_map.mp hl
    have hb := b.toNat_lt
    exact Text.hexDigits_hexNat (by decide) (by omega)
  · intro l hl
    obtain ⟨r, -, rfl⟩ := List.mem_map.mp hl
    have hr := r.toNat_lt
    exact Text.hexDigits_hexNat (by decide) (by omega)
  · intro constants texts a h hsize l hl
    obtain ⟨i, hi, rfl⟩ : ∃ i, (i ∈ p.starts ∨ i ∈ p.sequence) ∧ Text.hexInt 4 i = l := by
      rw [Program.startLines, Program.sequenceLines, ← List.map_append] at hl
      obtain ⟨i, hi, rfl⟩ := List.mem_map.mp hl
      exact ⟨i, List.mem_append.mp hi, rfl⟩
    obtain ⟨h0, hle⟩ := Assembly.location_of_run h hi
    rw [Text.hexInt, if_neg (by omega)]
    exact Text.hexDigits_hexNat (by decide) (by omega)

theorem outputs_recovered_sample :
    ∃ a program, Assembly.run {} (Line.ofTexts Source.sample) = (a, .ok program) ∧
      program.words.length = 10 ∧ program.startLines.length = 8 ∧
      OutputFile.Recovers program.sequenceLines program.sequence ∧
      ∀ l ∈ program.startLines ++ program.sequenceLines, Text.HexDigits 4 l := by
  obtain ⟨a, program, h⟩ := Source.run_sample
  have hsizes : (Assembly.run {} (Line.ofTexts Source.sample)).2.toOption.map
      (fun p => (p.words.length, p.startLines.length)) = some (10, 8) := by
    decide +kernel
  rw [h] at hsizes
  obtain ⟨hwords, hstarts⟩ := Prod.mk.inj (Option.some.inj hsizes)
  obtain ⟨-, -, -, -, hsequence, -, -, -, hwidth⟩ := outputs_recovered program
  exact ⟨a, program, h, hwords, hstarts, hsequence,
    hwidth {} Source.sample a h (by rw [hwords]; decide)⟩

end BarrelAsm
