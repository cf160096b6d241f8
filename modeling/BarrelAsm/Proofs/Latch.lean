import BarrelAsm.Output.Files
import Mathlib.Tactic.SplitIfs

/-! What a latch lets through: the texts up to the first write that fails, and of that one the part
that the device kept. -/
namespace BarrelAsm

theorem WriteFault.part_isPrefix (fault : Option WriteFault) (t : Text) : part fault t <+: t := by
  cases fault with
  | none => exact List.prefix_rfl
  | some f => exact List.take_prefix _ _

/-- A view of a device to which each write adds a piece of its own. -/
def Device.Appends {σ α : Type} (d : Device σ) (view : σ → List α)
    (piece : Option WriteFault → Text → List α) : Prop :=
  ∀ s t, view (d s t).1 = view s ++ piece (d s t).2 t

namespace Latch

variable {σ : Type} {d : Device σ} {l : Latch σ}

theorem write_of_error {e : Text} (h : l.error = some e) (t : Text) : l.write d t = (l, 0) := by
  simp [write, h]

theorem write_of_open (h : l.error = none) (t : Text) :
    (l.write d t).1 = ⟨(d l.state t).1, (d l.state t).2.map WriteFault.reason⟩ := by
  simp [write, h]

theorem writeAll_cons (l : Latch σ) (t : Text) (ts : List Text) :
    l.writeAll d (t :: ts) = (l.write d t).1.writeAll d ts := rfl

theorem writeAll_append (l : Latch σ) (ts us : List Text) :
    l.writeAll d (ts ++ us) = (l.writeAll d ts).writeAll d us :=
  List.foldl_append

theorem writeAll_of_error {e : Text} (h : l.error = some e) (ts : List Text) :
    l.writeAll d ts = l := by
  induction ts with
  | nil => rfl
  | cons t ts ih => rw [writeAll_cons, write_of_error h, ih]

/-- To stop at the first failure is the same as to go on. -/
theorem writeUntilFault_eq (l : Latch σ) (ts : List Text) :
    l.writeUntilFault d ts = l.writeAll d ts := by
  induction ts generalizing l with
  | nil => rfl
  | cons t ts ih =>
    rw [writeUntilFault, writeAll_cons]
    split
    · rename_i hw
      rw [hw, ih]
    · rename_i hw
      rw [hw, writeAll_of_error rfl]

/-- What every write keeps of a device is kept by the latch. -/
theorem state_writeAll {P : σ → Prop} (hd : ∀ s t, P s → P (d s t).1) (h : P l.state)
    (ts : List Text) : P (l.writeAll d ts).state := by
  induction ts generalizing l with
  | nil => exact h
  | cons t ts ih =>
    rw [writeAll_cons]
    refine ih ?_
    cases he : l.error with
    | none =>
      rw [write_of_open he]
      exact hd l.state t h
    | some e =>
      rw [write_of_error he]
      exact h

/-- After these texts, which went through, the next one is the first to fail. -/
structure FirstFault (d : Device σ) (l : Latch σ) (pre : List Text) (t : Text) (f : WriteFault) :
    Prop where
  passed : (l.writeAll d pre).error = none
  fault : (d (l.writeAll d pre).state t).2 = some f

/-- Whatever is written after the first write that failed, the latch stays as that write left it. -/
theorem writeAll_of_fault {pre : List Text} {t : Text} {f : WriteFault} (h : FirstFault d l pre t f)
    (post : List Text) :
    l.writeAll d (pre ++ t :: post) = ⟨(d (l.writeAll d pre).state t).1, some f.reason⟩ := by
  rw [writeAll_append, writeAll_cons, write_of_open h.passed, h.fault]
  exact writeAll_of_error rfl post

theorem writeAll_cases (h : l.error = none) (ts : List Text) :
    (l.writeAll d ts).error = none ∨
      ∃ pre t post f, ts = pre ++ t :: post ∧ FirstFault d l pre t f := by
  induction ts generalizing l with
  | nil => exact .inl h
  | cons t ts ih =>
    cases hf : (d l.state t).2 with
    | some f => exact .inr ⟨[], t, ts, f, rfl, h, hf⟩
    | none =>
      have hopen : (l.write d t).1.error = none := by rw [write_of_open h, hf]; rfl
      rcases ih hopen with hall | ⟨pre, u, post, f, rfl, hfirst⟩
      · exact .inl hall
      · exact .inr ⟨t :: pre, u, post, f, rfl, hfirst.passed, hfirst.fault⟩

theorem error_of_writeAll {ts : List Text} (h : (l.writeAll d ts).error = none) :
    l.error = none := by
  cases he : l.error with
  | none => rfl
  | some e =>
    rw [writeAll_of_error he, he] at h
    exact h

section View

variable {α : Type} {view : σ → List α} {piece : Option WriteFault → Text → List α}

theorem view_writeAll (hd : d.Appends view piece) {ts : List Text}
    (h : (l.writeAll d ts).error = none) :
    view (l.writeAll d ts).state = view l.state ++ ts.flatMap (piece none) := by
  induction ts generalizing l with
  | nil => simp [writeAll]
  | cons t ts ih =>
    have hopen : l.error = none := error_of_writeAll h
    rw [writeAll_cons, write_of_open hopen] at h ⊢
    have hf : (d l.state t).2 = none := Option.map_eq_none_iff.mp (error_of_writeAll h)
    rw [ih h, hd, hf, List.flatMap_cons, List.append_assoc]

theorem view_writeAll_of_fault (hd : d.Appends view piece) {pre : List Text} {t : Text}
    {f : WriteFault} (h : FirstFault d l pre t f) (post : List Text) :
    view (l.writeAll d (pre ++ t :: post)).state =
      view l.state ++ pre.flatMap (piece none) ++ piece (some f) t := by
  rw [writeAll_of_fault h, hd, h.fault, view_writeAll hd h.passed]

end View

theorem content_writeAll {content : σ → Text} (hd : d.Appends content WriteFault.part)
    {ts : List Text} (h : (l.writeAll d ts).error = none) :
    content (l.writeAll d ts).state = content l.state ++ ts.flatten := by
  rw [view_writeAll hd h, List.flatMap_def]
  exact congrArg (content l.state ++ ·.flatten) (List.map_id ts)

/-- A device that keeps of each write what it says holds a first part of what was written. -/
theorem content_writeAll_isPrefix {content : σ → Text} (hd : d.Appends content WriteFault.part)
    (h : l.error = none) (ts : List Text) :
    ∃ kept, kept <+: ts.flatten ∧ content (l.writeAll d ts).state = content l.state ++ kept := by
  rcases writeAll_cases h ts with hopen | ⟨pre, t, post, f, rfl, hfirst⟩
  · exact ⟨ts.flatten, List.prefix_rfl, content_writeAll hd hopen⟩
  · refine ⟨pre.flatten ++ WriteFault.part (some f) t, ?_, ?_⟩
    · rw [List.flatten_append, List.flatten_cons, List.prefix_append_right_inj]
      exact (WriteFault.part_isPrefix (some f) t).trans (List.prefix_append _ _)
    · rw [writeAll_of_fault hfirst, hd, hfirst.fault, content_writeAll hd hfirst.passed,
        List.append_assoc]

end Latch

namespace Sink

variable {s : Sink} {n : Nat} {t : Text}

theorem device_of_fits (hl : s.limit = some n) (ht : s.content.size + t.length ≤ n) :
    device s t = ({ s with content := s.content ++ t.toArray }, none) := by
  have hkept : s.fitting t = t := by
    rw [fitting, hl]
    exact List.take_of_length_le (by omega)
  simp [device, hkept]

theorem device_of_full (hl : s.limit = some n) (hs : s.content.size ≤ n)
    (ht : n < s.content.size + t.length) :
    device s t = ({ s with content := s.content ++ (t.take (n - s.content.size)).toArray },
      some ⟨n - s.content.size, fullReason⟩) := by
  have hkept : s.fitting t = t.take (n - s.content.size) := by rw [fitting, hl]
  have hlen : (t.take (n - s.content.size)).length = n - s.content.size := by
    rw [List.length_take]
    omega
  have hshort : n - s.content.size ≠ t.length := by omega
  simp [device, hkept, hlen, hshort]

theorem fitting_isPrefix (s : Sink) (t : Text) : s.fitting t <+: t := by
  unfold fitting
  split
  · exact List.prefix_rfl
  · exact List.take_prefix _ _

theorem device_appends : device.Appends (fun s => s.content.toList) WriteFault.part := by
  intro s t
  have hkept : s.fitting t <+: t := fitting_isPrefix s t
  by_cases hlen : (s.fitting t).length = t.length
  · simp [device, WriteFault.part, hkept.eq_of_length hlen]
  · simpa [device, hlen, WriteFault.part] using List.prefix_iff_eq_take.mp hkept

theorem device_of_unlimited (hl : s.limit = none) (t : Text) :
    device s t = ({ s with content := s.content ++ t.toArray }, none) := by
  have hkept : s.fitting t = t := by rw [fitting, hl]
  simp [device, hkept]

theorem reason_of_device {f : WriteFault} (h : (device s t).2 = some f) :
    f.reason = fullReason := by
  unfold device at h
  dsimp only at h
  split_ifs at h
  cases h
  rfl

end Sink

namespace Latch

/-- The latch was given this text, and its sink had room for so many bytes. -/
structure Cut (limit : Nat) (t : Text) (l : Latch Sink) : Prop where
  content : l.state.content.toList = t.take limit
  error : l.error = if limit < t.length then some Sink.fullReason else none

theorem cut_writeAll {s : Sink} {n : Nat} (hl : s.limit = some n) (hs : s.content.size ≤ n)
    (ts : List Text) :
    Cut n (s.content.toList ++ ts.flatten) (writeAll Sink.device ⟨s, none⟩ ts) := by
  induction ts generalizing s with
  | nil =>
    refine ⟨?_, ?_⟩
    · simpa [writeAll] using (List.take_of_length_le hs).symm
    · simpa [writeAll] using hs
  | cons t ts ih =>
    rw [writeAll_cons, write_of_open rfl]
    rcases Nat.lt_or_ge n (s.content.size + t.length) with ht | ht
    · -- The text does not fit: what fits of it is all that fits of the rest as well.
      rw [Sink.device_of_full hl hs ht, writeAll_of_error rfl]
      have hsize : s.content.toList.length = s.content.size := Array.length_toList
      refine ⟨?_, ?_⟩
      · have hall : s.content.toList.take n = s.content.toList := List.take_of_length_le hs
        rw [List.take_append, hall, hsize, List.flatten_cons,
          List.take_append_of_le_length (by omega)]
        simp
      · rw [if_pos (by simp; omega)]
        rfl
    · rw [Sink.device_of_fits hl ht]
      have hrest := ih (s := { s with content := s.content ++ t.toArray }) hl (by simpa using ht)
      simpa using hrest

theorem cut_writeAll_of_empty (limit : Nat) (ts : List Text) :
    Cut limit ts.flatten (writeAll Sink.device ⟨{ limit := some limit }, none⟩ ts) :=
  cut_writeAll (s := { limit := some limit }) rfl (Nat.zero_le limit) ts

/-- Without a limit nothing fails. -/
theorem error_writeAll_of_unlimited {s : Sink} (hl : s.limit = none) (ts : List Text) :
    (writeAll Sink.device ⟨s, none⟩ ts).error = none := by
  induction ts generalizing s with
  | nil => rfl
  | cons t ts ih =>
    rw [writeAll_cons, write_of_open rfl, Sink.device_of_unlimited hl]
    exact ih hl

/-- The sink is the only cause of errors. -/
def OfSink (l : Latch Sink) : Prop := ∀ e, l.error = some e → e = Sink.fullReason

theorem OfSink.write {l : Latch Sink} (h : OfSink l) (t : Text) :
    OfSink (l.write Sink.device t).1 := by
  cases he : l.error with
  | some e =>
    rw [write_of_error he]
    exact h
  | none =>
    rw [write_of_open he]
    intro e herror
    obtain ⟨f, hf, rfl⟩ := Option.map_eq_some_iff.mp herror
    exact Sink.reason_of_device hf

theorem OfSink.writeAll {l : Latch Sink} (h : OfSink l) (ts : List Text) :
    OfSink (l.writeAll Sink.device ts) := by
  induction ts generalizing l with
  | nil => exact h
  | cons t ts ih => exact ih (h.write t)

end Latch

namespace Guard

theorem latch_ofLatch {l : Latch Sink} (h : l.OfSink) : (ofLatch l).latch = l := by
  obtain ⟨s, _ | e⟩ := l
  · rfl
  · rw [h e rfl]
    rfl

theorem ofSink_latch (g : Guard) : g.latch.OfSink := by
  intro e he
  unfold latch at he
  dsimp only at he
  split_ifs at he
  exact (Option.some.inj he).symm

theorem latch_write (g : Guard) (t : Text) :
    ((g.write t).1.latch, (g.write t).2) = g.latch.write Sink.device t :=
  Prod.ext (latch_ofLatch (g.ofSink_latch.write t)) rfl

theorem latch_writeAll (g : Guard) (ts : List Text) :
    (g.writeAll ts).latch = g.latch.writeAll Sink.device ts :=
  latch_ofLatch (g.ofSink_latch.writeAll ts)

end Guard

namespace OutputFile

/-- Lines as one text. -/
def lineText (lines : List Text) : Text := lines.flatMap (· ++ [10])

theorem flatten_lineChunks (lines : List Text) : (lineChunks lines).flatten = lineText lines :=
  List.flatMap_def.symm

/-- The configuration as one text. -/
def configText (processCount : Int) : Text :=
  ("// These are assembler maintained constants.\n// Do not change manually.\n\n" : Text) ++
    ("parameter process_count = " : Text) ++ Text.ofInt processCount ++ (";" : Text)

theorem flatten_configChunks (processCount : Int) :
    (configChunks processCount).flatten = configText processCount := by
  simp only [configChunks, configText, List.flatten_cons, List.flatten_nil, List.append_nil,
    ← List.append_assoc]
  rfl

end OutputFile

open OutputFile in
/-- Lines and configurations that are written to a file with a limit leave there as many bytes as it
has room for, and fail if that is not all. For writes through a latch to any device that keeps a
part of a write that fails, what the device holds is a first part of what was written. The first
write that fails gives the error, and after it each write returns that error with no byte written
and leaves the device alone. -/
theorem writes_latched (limit : Nat) (lines : List Text) (processCount : Int) {σ : Type}
    {d : Device σ} {content : σ → Text} (hd : d.Appends content WriteFault.part) (s : σ) :
    Latch.Cut limit (lineText lines)
      (Latch.writeUntilFault Sink.device ⟨{ limit := some limit }, none⟩ (lineChunks lines)) ∧
    Latch.Cut limit (configText processCount)
      (Latch.writeAll Sink.device ⟨{ limit := some limit }, none⟩ (configChunks processCount)) ∧
    Sink.device.Appends (fun s => s.content.toList) WriteFault.part ∧
    (∀ (g : Guard) ts t, (g.writeAll ts).latch = g.latch.writeAll Sink.device ts ∧
      ((g.write t).1.latch, (g.write t).2) = g.latch.write Sink.device t) ∧
    (∀ (l : Latch σ) ts, l.writeUntilFault d ts = l.writeAll d ts) ∧
    (∀ ts, ∃ kept, kept <+: ts.flatten ∧
      content (Latch.writeAll d ⟨s, none⟩ ts).state = content s ++ kept) ∧
    (∀ ts, (Latch.writeAll d ⟨s, none⟩ ts).error = none ∧
        content (Latch.writeAll d ⟨s, none⟩ ts).state = content s ++ ts.flatten ∨
      ∃ pre t post f, ts = pre ++ t :: post ∧ Latch.FirstFault d ⟨s, none⟩ pre t f) ∧
    ∀ pre t f, Latch.FirstFault d ⟨s, none⟩ pre t f → ∀ post u,
      (Latch.writeAll d ⟨s, none⟩ (pre ++ t :: post)).write d u =
        (⟨(d (Latch.writeAll d ⟨s, none⟩ pre).state t).1, some f.reason⟩, 0) := by
  refine ⟨?_, ?_, Sink.device_appends, fun g ts t => ⟨g.latch_writeAll ts, g.latch_write t⟩,
    Latch.writeUntilFault_eq, Latch.content_writeAll_isPrefix hd rfl, fun ts => ?_,
    fun pre t f hfirst post u => ?_⟩
  · rw [Latch.writeUntilFault_eq, ← flatten_lineChunks]
    exact Latch.cut_writeAll_of_empty limit (lineChunks lines)
  · rw [← flatten_configChunks]
    exact Latch.cut_writeAll_of_empty limit (configChunks processCount)
  · exact (Latch.writeAll_cases rfl ts).imp_left fun h => ⟨h, Latch.content_writeAll hd h⟩
  · rw [Latch.writeAll_of_fault hfirst]
    exact Latch.write_of_error rfl u

/-- A device for texts of up to two bytes, which keeps the first byte of a longer one. -/
def Device.narrow : Device Text := fun s t =>
  if t.length ≤ 2 then (s ++ t, none) else (s ++ t.take 1, some ⟨1, "too long"⟩)

theorem Device.narrow_appends : Device.narrow.Appends id WriteFault.part := by
  intro s t
  by_cases ht : t.length ≤ 2
  · simp [narrow, ht, WriteFault.part]
  · simp [narrow, ht, WriteFault.part]

/-- The limit falls on the end of the first line, and the third of four texts is too long. -/
theorem writes_latched_narrow :
    Device.narrow.Appends id WriteFault.part ∧
    Latch.FirstFault Device.narrow ⟨[], none⟩ ["ab", ""] "cde" ⟨1, "too long"⟩ ∧
    Latch.Cut 2 "a\nbc\n" (Latch.writeUntilFault Sink.device ⟨{ limit := some 2 }, none⟩
      (OutputFile.lineChunks ["a", "bc"])) ∧
    (Latch.writeAll Device.narrow ⟨[], none⟩ ["ab", "", "cde", "f"]).write Device.narrow [] =
      (⟨"abc", some "too long"⟩, 0) := by
  have hfirst : Latch.FirstFault Device.narrow ⟨[], none⟩ ["ab", ""] "cde" ⟨1, "too long"⟩ :=
    ⟨by decide +kernel, by decide +kernel⟩
  obtain ⟨hcut, -, -, -, -, -, -, hstay⟩ :=
    writes_latched 2 ["a", "bc"] 0 Device.narrow_appends ([] : Text)
  refine ⟨Device.narrow_appends, hfirst, hcut, ?_⟩
  exact (hstay ["ab", ""] "cde" ⟨1, "too long"⟩ hfirst ["f"] []).trans (by decide +kernel)

end BarrelAsm
