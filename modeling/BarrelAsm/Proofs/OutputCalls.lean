import BarrelAsm.Proofs.Output

/-! The calls that writing the output files makes of a file system: which files are created, what
they hold, and that each of them is closed, whatever call fails. -/
namespace BarrelAsm

namespace FileCall

/-- The file that a call is about. -/
def file : FileCall → Text
  | create name _ => name
  | write name _ _ => name
  | close name _ => name

def opened? : FileCall → Option Text
  | create name none => some name
  | _ => none

def closed? : FileCall → Option Text
  | close name _ => some name
  | _ => none

/-- What is reported of a call that failed. -/
def error? : FileCall → Option OutputError
  | create name fault => fault.map fun reason => ⟨name, .create reason⟩
  | write name _ fault => fault.map fun f => ⟨name, .write f.reason⟩
  | close name fault => fault.map fun reason => ⟨name, .close reason⟩

/-- What a call adds to a file. -/
def added (name : Text) : FileCall → Text
  | write n t fault => if n = name then WriteFault.part fault t else []
  | _ => []

/-- What a file holds after these calls. -/
def content (name : Text) (calls : List FileCall) : Text := calls.flatMap (added name)

/-- What a call makes of the files, which are given by their names. -/
def effect : FileCall → (Text → Text) → Text → Text
  | create name none, held => fun m => if m = name then [] else held m
  | create _ (some _), held => held
  | write name t fault, held =>
    fun m => if m = name then held name ++ WriteFault.part fault t else held m
  | close _ _, held => held

/-- What the calls make of the files, one after the other. -/
def effects (calls : List FileCall) (held : Text → Text) : Text → Text :=
  calls.foldl (fun held c => c.effect held) held

/-- The file was created, holds this text and was closed, and no call about it failed. -/
structure Finished (calls : List FileCall) (name text : Text) : Prop where
  created : create name none ∈ calls
  content : content name calls = text
  closed : close name none ∈ calls
  sound : ∀ c ∈ calls, c.file = name → c.error? = none

/-- Calls that write these files in their order, up to the first that one of its calls fails for. -/
structure Delivers (files : List (Text × Text)) (calls : List FileCall)
    (outcome : Option OutputError) : Prop where
  /-- The outcome is that of the first call that failed. -/
  first : outcome = calls.findSome? error?
  /-- The files that were created are closed, in the same order and as often. -/
  closed : calls.filterMap closed? = calls.filterMap opened?
  once : (calls.filterMap opened?).Nodup
  begun : outcome = none → calls.filterMap begun? = files.map Prod.fst
  finished : outcome = none ↔ ∀ f ∈ files, Finished calls f.1 f.2
  failed : ∀ e, outcome = some e → ∃ pre text post, files = pre ++ (e.name, text) :: post ∧
    calls.filterMap begun? = pre.map Prod.fst ++ [e.name] ∧
    (∀ f ∈ pre, Finished calls f.1 f.2) ∧ content e.name calls <+: text

theorem name_of_error? {c : FileCall} {e : OutputError} (h : c.error? = some e) :
    e.name = c.file := by
  cases c <;> obtain ⟨_, -, rfl⟩ := Option.map_eq_some_iff.mp h <;> rfl

theorem content_append (name : Text) (cs ds : List FileCall) :
    content name (cs ++ ds) = content name cs ++ content name ds :=
  List.flatMap_append

theorem content_of_other {name : Text} {cs : List FileCall} (h : ∀ c ∈ cs, c.file ≠ name) :
    content name cs = [] := by
  refine List.flatMap_eq_nil_iff.mpr fun c hc => ?_
  have hname := h c hc
  cases c with
  | create => rfl
  | write n t fault => exact if_neg hname
  | close => rfl

theorem effects_of_other {m : Text} {cs : List FileCall} (h : ∀ c ∈ cs, c.file ≠ m)
    (held : Text → Text) : effects cs held m = held m := by
  induction cs generalizing held with
  | nil => rfl
  | cons c cs ih =>
    obtain ⟨hc, hcs⟩ := List.forall_mem_cons.mp h
    have hcons : effects (c :: cs) held = effects cs (c.effect held) := rfl
    rw [hcons, ih hcs]
    cases c with
    | create name fault =>
      cases fault with
      | none => exact if_neg (Ne.symm hc)
      | some reason => rfl
    | write name t fault => exact if_neg (Ne.symm hc)
    | close => rfl

theorem content_writes (name : Text) (ts : List Text) :
    content name (ts.map (.write name · none)) = ts.flatten := by
  induction ts with
  | nil => rfl
  | cons t ts ih =>
    have hcons : content name ((t :: ts).map (.write name · none)) =
        added name (.write name t none) ++ content name (ts.map (.write name · none)) := rfl
    rw [hcons, ih]
    simp [added, WriteFault.part]

theorem content_between (name : Text) {n m : Text} {creating closing : Option Text}
    (cs : List FileCall) :
    content name (.create n creating :: (cs ++ [.close m closing])) = content name cs := by
  simp [content, added]

/-- Calls that are writes to a file. -/
def Writes (name : Text) (cs : List FileCall) : Prop := ∀ c ∈ cs, ∃ t fault, c = write name t fault

theorem writes_map (name : Text) (ts : List Text) : Writes name (ts.map (.write name · none)) := by
  intro c hc
  obtain ⟨t, -, rfl⟩ := List.mem_map.mp hc
  exact ⟨t, none, rfl⟩

theorem Writes.filterMap_eq_nil {α : Type} {g : FileCall → Option α} {name : Text}
    {cs : List FileCall} (h : Writes name cs) (hg : ∀ t fault, g (.write name t fault) = none) :
    cs.filterMap g = [] := by
  refine List.filterMap_eq_nil_iff.mpr fun c hc => ?_
  obtain ⟨t, fault, rfl⟩ := h c hc
  exact hg t fault

/-- Writes to the file that was created last. -/
theorem Writes.foldl_after {name : Text} {cs : List FileCall} (h : Writes name cs)
    (held : Array UInt8) (closes : Nat) (fs : List WrittenFile) :
    cs.foldl WrittenFile.after (⟨name, held, closes⟩ :: fs) =
      ⟨name, held ++ (content name cs).toArray, closes⟩ :: fs := by
  induction cs generalizing held with
  | nil => simp [content]
  | cons c cs ih =>
    obtain ⟨t, fault, rfl⟩ := h c List.mem_cons_self
    have hstep : WrittenFile.after (⟨name, held, closes⟩ :: fs) (.write name t fault) =
        ⟨name, held ++ (WriteFault.part fault t).toArray, closes⟩ :: fs := by
      simp [WrittenFile.after, WrittenFile.modify, WrittenFile.append]
    rw [List.foldl_cons, hstep, ih fun d hd => h d (List.mem_cons_of_mem _ hd)]
    simp [content, added]

theorem Writes.effects {name : Text} {cs : List FileCall} (h : Writes name cs)
    (held : Text → Text) :
    effects cs held = fun m => if m = name then held name ++ content name cs else held m := by
  induction cs generalizing held with
  | nil =>
    funext m
    by_cases hm : m = name
    · simp [FileCall.effects, content, hm]
    · simp [FileCall.effects, hm]
  | cons c cs ih =>
    obtain ⟨t, fault, rfl⟩ := h c List.mem_cons_self
    have hcons : FileCall.effects (.write name t fault :: cs) held =
        FileCall.effects cs (FileCall.effect (.write name t fault) held) := rfl
    rw [hcons, ih fun d hd => h d (List.mem_cons_of_mem _ hd)]
    funext m
    by_cases hm : m = name
    · simp [effect, content, added, hm]
    · simp [effect, hm]

end FileCall

/-- The name of a file with its complete text. -/
def OutputFile.entry (f : OutputFile) : Text × Text := (f.name, f.chunks.flatten)

/-- A file and the calls that were made about it. -/
structure Episode where
  file : OutputFile
  calls : List FileCall

namespace Episode

open FileCall

/-- Calls that leave the file closed, with a first part of its text, or that could not create it. -/
structure Orderly (e : Episode) : Prop where
  file : ∀ c ∈ e.calls, c.file = e.file.name
  begun : e.calls.filterMap begun? = [e.file.name]
  opened : (e.calls.filterMap opened?).Sublist [e.file.name]
  closed : e.calls.filterMap closed? = e.calls.filterMap opened?
  content : content e.file.name e.calls <+: e.file.chunks.flatten
  held : ∀ held, ∀ m, effects e.calls held m =
    if m ∈ e.calls.filterMap opened? then FileCall.content m e.calls else held m
  report : ∀ fs, e.calls.foldl WrittenFile.after fs =
    ((e.calls.filterMap opened?).map
      fun name => ⟨name, (FileCall.content name e.calls).toArray, 1⟩).reverse ++ fs

/-- All went well. -/
def complete (f : OutputFile) : Episode where
  file := f
  calls := .create f.name none :: (f.chunks.map (.write f.name · none) ++ [.close f.name none])

/-- One call fails. The file is still closed if it was created. -/
inductive Broken (f : OutputFile) : List FileCall → OutputFault → Prop
  | create (reason : Text) : Broken f [.create f.name (some reason)] (.create reason)
  | write {pre : List Text} {t : Text} {post : List Text} (h : f.chunks = pre ++ t :: post)
      (fault : WriteFault) (closing : Option Text) :
      Broken f (.create f.name none :: (pre.map (.write f.name · none) ++
        [.write f.name t (some fault), .close f.name closing])) (.write fault.reason)
  | close (reason : Text) :
      Broken f (.create f.name none :: (f.chunks.map (.write f.name · none) ++
        [.close f.name (some reason)])) (.close reason)

/-- Whatever the writes came to, a file that was created and then closed is in order. -/
theorem orderly_of_writes {f : OutputFile} {cs : List FileCall} (h : Writes f.name cs)
    (hc : FileCall.content f.name cs <+: f.chunks.flatten) (closing : Option Text) :
    Orderly ⟨f, .create f.name none :: (cs ++ [.close f.name closing])⟩ := by
  have hopened : cs.filterMap opened? = [] := h.filterMap_eq_nil fun _ _ => rfl
  have hclosed : cs.filterMap closed? = [] := h.filterMap_eq_nil fun _ _ => rfl
  have hbegun : cs.filterMap begun? = [] := h.filterMap_eq_nil fun _ _ => rfl
  refine ⟨?_, ?_, ?_, ?_, ?_, ?_, ?_⟩
  · intro c hmem
    simp only [List.mem_cons, List.mem_append, List.not_mem_nil, or_false] at hmem
    rcases hmem with rfl | hmem | rfl
    · rfl
    · obtain ⟨t, fault, rfl⟩ := h c hmem
      rfl
    · rfl
  · simp [List.filterMap_cons, begun?, hbegun]
  · simp [List.filterMap_cons, opened?, hopened]
  · simp [List.filterMap_cons, opened?, closed?, hopened, hclosed]
  · rw [content_between]
    exact hc
  · intro held m
    have hsplit : effects (.create f.name none :: (cs ++ [.close f.name closing])) held =
        effects cs (effect (.create f.name none) held) := by
      simp [effects, effect]
    rw [hsplit, h.effects]
    by_cases hm : m = f.name
    · simp [effect, opened?, hopened, content_between, hm]
    · simp [effect, opened?, hopened, hm]
  · intro fs
    simp only [List.foldl_cons, List.foldl_append, List.foldl_nil, WrittenFile.after,
      h.foldl_after]
    simp [WrittenFile.modify, WrittenFile.close, opened?, hopened, content_between]

theorem complete_orderly (f : OutputFile) : (complete f).Orderly :=
  orderly_of_writes (writes_map f.name f.chunks) (by rw [content_writes]) none

theorem content_complete (f : OutputFile) :
    FileCall.content f.name (complete f).calls = f.chunks.flatten :=
  (content_between f.name _).trans (content_writes f.name f.chunks)

theorem Broken.orderly {f : OutputFile} {cs : List FileCall} {fault : OutputFault}
    (h : Broken f cs fault) : Orderly ⟨f, cs⟩ := by
  cases h with
  | create reason =>
    refine ⟨?_, rfl, List.nil_sublist _, rfl, List.nil_prefix, fun held m => rfl, fun fs => rfl⟩
    intro c hc
    rw [List.mem_singleton.mp hc]
    rfl
  | @write pre t post h fault closing =>
    have hwrites : Writes f.name
        (pre.map (.write f.name · none) ++ [.write f.name t (some fault)]) := by
      intro c hc
      rcases List.mem_append.mp hc with hc | hc
      · exact writes_map f.name pre c hc
      · exact ⟨t, some fault, List.mem_singleton.mp hc⟩
    have hprefix : FileCall.content f.name
        (pre.map (.write f.name · none) ++ [.write f.name t (some fault)]) <+:
          f.chunks.flatten := by
      rw [content_append, content_writes, h, List.flatten_append, List.flatten_cons,
        List.prefix_append_right_inj]
      have hpart := WriteFault.part_isPrefix (some fault) t
      simpa [FileCall.content, added] using hpart.trans (List.prefix_append t post.flatten)
    simpa using orderly_of_writes hwrites hprefix closing
  | close reason =>
    exact orderly_of_writes (writes_map f.name f.chunks) (by rw [content_writes]) (some reason)

theorem error?_of_mem_complete {f : OutputFile} {c : FileCall} (h : c ∈ (complete f).calls) :
    c.error? = none := by
  simp only [complete, List.mem_cons, List.mem_append, List.not_mem_nil, or_false] at h
  rcases h with rfl | h | rfl
  · rfl
  · obtain ⟨t, -, rfl⟩ := List.mem_map.mp h
    rfl
  · rfl

theorem Broken.findSome?_error? {f : OutputFile} {cs : List FileCall} {fault : OutputFault}
    (h : Broken f cs fault) : cs.findSome? error? = some ⟨f.name, fault⟩ := by
  have hwrites : ∀ ts : List Text, (ts.map (.write f.name · none)).findSome? error? = none := by
    intro ts
    refine List.findSome?_eq_none_iff.mpr fun c hc => ?_
    obtain ⟨t, -, rfl⟩ := List.mem_map.mp hc
    rfl
  cases h with
  | create reason => rfl
  | write h fault closing => simp [List.findSome?_cons, error?, hwrites]
  | close reason => simp [List.findSome?_cons, error?, hwrites]

/-- The calls of one episode after the other. -/
def allCalls (es : List Episode) : List FileCall := es.flatMap calls

section Series

variable {es : List Episode} (hes : ∀ e ∈ es, e.Orderly)
include hes

theorem begun_allCalls : (allCalls es).filterMap begun? = es.map (·.file.name) := by
  rw [allCalls, List.filterMap_flatMap, List.map_eq_flatMap]
  exact List.flatMap_congr fun e he => (hes e he).begun

theorem closed_allCalls : (allCalls es).filterMap closed? = (allCalls es).filterMap opened? := by
  rw [allCalls, List.filterMap_flatMap, List.filterMap_flatMap]
  exact List.flatMap_congr fun e he => (hes e he).closed

theorem opened_allCalls_sublist :
    ((allCalls es).filterMap opened?).Sublist (es.map (·.file.name)) := by
  induction es with
  | nil => exact List.nil_sublist _
  | cons e es ih =>
    obtain ⟨he, hrest⟩ := List.forall_mem_cons.mp hes
    rw [allCalls, List.flatMap_cons, List.filterMap_append]
    exact he.opened.append (ih hrest)

/-- What the files are after the calls, said by each episode for itself. -/
theorem foldl_after_allCalls (fs : List WrittenFile) :
    (allCalls es).foldl WrittenFile.after fs =
      (es.flatMap fun e => (e.calls.filterMap opened?).map
        fun name => ⟨name, (FileCall.content name e.calls).toArray, 1⟩).reverse ++ fs := by
  induction es generalizing fs with
  | nil => rfl
  | cons e es ih =>
    obtain ⟨he, hrest⟩ := List.forall_mem_cons.mp hes
    have ihrest := ih hrest
    rw [allCalls] at ihrest ⊢
    rw [List.flatMap_cons, List.foldl_append, he.report, ihrest, List.flatMap_cons,
      List.reverse_append, List.append_assoc]

theorem file_ne_of_notMem {m : Text} (hm : m ∉ es.map (·.file.name)) {c : FileCall}
    (hc : c ∈ allCalls es) : c.file ≠ m := by
  obtain ⟨e, he, hmem⟩ := List.mem_flatMap.mp hc
  rw [(hes e he).file c hmem]
  exact fun hname => hm (List.mem_map.mpr ⟨e, he, hname⟩)

variable (hn : (es.map (·.file.name)).Nodup)
include hn

theorem mem_calls_of_file {e : Episode} (he : e ∈ es) {c : FileCall} (hc : c ∈ allCalls es)
    (hfile : c.file = e.file.name) : c ∈ e.calls := by
  obtain ⟨e', he', hmem⟩ := List.mem_flatMap.mp hc
  have hname : e'.file.name = e.file.name := ((hes e' he').file c hmem).symm.trans hfile
  rwa [List.inj_on_of_nodup_map hn he' he hname] at hmem

/-- Other episodes add nothing to a file. -/
theorem content_allCalls {e : Episode} (he : e ∈ es) :
    FileCall.content e.file.name (allCalls es) = FileCall.content e.file.name e.calls := by
  obtain ⟨l, r, rfl⟩ := List.append_of_mem he
  rw [List.map_append, List.map_cons, List.nodup_middle, List.nodup_cons, List.mem_append,
    not_or] at hn
  obtain ⟨⟨hl, hr⟩, -⟩ := hn
  have hbefore : FileCall.content e.file.name (allCalls l) = [] :=
    content_of_other fun _ => file_ne_of_notMem
      (fun e' he' => hes e' (List.mem_append_left _ he')) hl
  have hbehind : FileCall.content e.file.name (allCalls r) = [] :=
    content_of_other fun _ => file_ne_of_notMem
      (fun e' he' => hes e' (List.mem_append_right _ (List.mem_cons_of_mem e he'))) hr
  have hsplit : allCalls (l ++ e :: r) = allCalls l ++ (e.calls ++ allCalls r) := by
    simp [allCalls]
  rw [hsplit, content_append, content_append, hbefore, hbehind, List.nil_append, List.append_nil]

/-- A file whose episode is complete is finished. -/
theorem finished_of_mem {f : OutputFile} (hf : complete f ∈ es) :
    Finished (allCalls es) f.name f.chunks.flatten where
  created := List.mem_flatMap.mpr ⟨complete f, hf, by simp [complete]⟩
  content := (content_allCalls hes hn hf).trans (content_complete f)
  closed := List.mem_flatMap.mpr ⟨complete f, hf, by simp [complete]⟩
  sound := fun _ hc hfile => error?_of_mem_complete (mem_calls_of_file hes hn hf hc hfile)

/-- A file that was created holds after all calls what its own calls have added. -/
theorem effects_allCalls (held : Text → Text) {m : Text}
    (hm : m ∈ (allCalls es).filterMap opened?) :
    effects (allCalls es) held m = FileCall.content m (allCalls es) := by
  induction es generalizing held with
  | nil => cases hm
  | cons e es ih =>
    obtain ⟨he, hrest⟩ := List.forall_mem_cons.mp hes
    obtain ⟨hhead, hn⟩ := List.nodup_cons.mp hn
    have hsplit : allCalls (e :: es) = e.calls ++ allCalls es := List.flatMap_cons
    have hrun : effects (e.calls ++ allCalls es) held =
        effects (allCalls es) (effects e.calls held) := List.foldl_append
    rw [hsplit, List.filterMap_append, List.mem_append] at hm
    rw [hsplit, hrun, content_append]
    by_cases hlater : m ∈ es.map (·.file.name)
    · have hne : e.file.name ≠ m := by
        rintro rfl
        exact hhead hlater
      have hnone : m ∉ e.calls.filterMap opened? := fun hmem =>
        hne (List.mem_singleton.mp (he.opened.subset hmem)).symm
      have hcontent : FileCall.content m e.calls = [] :=
        content_of_other fun c hc hfile => hne ((he.file c hc).symm.trans hfile)
      rw [ih hrest hn _ (hm.resolve_left hnone), hcontent, List.nil_append]
    · have hnone : m ∉ (allCalls es).filterMap opened? := fun hmem =>
        hlater ((opened_allCalls_sublist hrest).subset hmem)
      have hcalls : ∀ c ∈ allCalls es, c.file ≠ m := fun _ => file_ne_of_notMem hrest hlater
      rw [effects_of_other hcalls, content_of_other hcalls, he.held,
        if_pos (hm.resolve_right hnone), List.append_nil]

/-- The files after the calls, by their names. -/
theorem report_allCalls :
    ((allCalls es).foldl WrittenFile.after []).reverse =
      ((allCalls es).filterMap opened?).map
        fun name => ⟨name, (FileCall.content name (allCalls es)).toArray, 1⟩ := by
  rw [foldl_after_allCalls hes, List.append_nil, List.reverse_reverse]
  conv_rhs => rw [allCalls, List.filterMap_flatMap, List.map_flatMap]
  refine List.flatMap_congr fun e he => List.map_congr_left fun name hname => ?_
  have heq : name = e.file.name := List.mem_singleton.mp ((hes e he).opened.subset hname)
  rw [heq, ← content_allCalls hes hn he, allCalls]

end Series

theorem report_eq {σ : Type} {session : FileSession σ} {es : List Episode}
    (h : session.calls.toList = allCalls es) (hes : ∀ e ∈ es, e.Orderly)
    (hn : (es.map (·.file.name)).Nodup) (error : Option OutputError) :
    session.report error =
      ⟨(allCalls es).filterMap begun?, ((allCalls es).filterMap opened?).map
        fun name => ⟨name, (FileCall.content name (allCalls es)).toArray, 1⟩, error⟩ := by
  rw [FileSession.report, ← Array.foldl_toList, h, report_allCalls hes hn]

theorem error?_of_mem_map_complete {files : List OutputFile} {c : FileCall}
    (h : c ∈ allCalls (files.map complete)) : c.error? = none := by
  obtain ⟨e, he, hc⟩ := List.mem_flatMap.mp h
  obtain ⟨f, -, rfl⟩ := List.mem_map.mp he
  exact error?_of_mem_complete hc

theorem orderly_of_mem_map_complete {files : List OutputFile} {e : Episode}
    (h : e ∈ files.map complete) : e.Orderly := by
  obtain ⟨f, -, rfl⟩ := List.mem_map.mp h
  exact complete_orderly f

theorem map_name_complete (files : List OutputFile) :
    (files.map complete).map (·.file.name) = files.map (·.name) :=
  List.map_map

theorem complete_delivers {files : List OutputFile} (hn : (files.map (·.name)).Nodup) :
    Delivers (files.map OutputFile.entry) (allCalls (files.map complete)) none := by
  have hes : ∀ e ∈ files.map complete, e.Orderly := fun _ => orderly_of_mem_map_complete
  have hnames := map_name_complete files
  refine ⟨?_, closed_allCalls hes, ?_, fun _ => ?_, ⟨fun _ => ?_, fun _ => rfl⟩, by simp⟩
  · exact (List.findSome?_eq_none_iff.mpr fun _ => error?_of_mem_map_complete).symm
  · exact (hnames ▸ hn).sublist (opened_allCalls_sublist hes)
  · rw [begun_allCalls hes, hnames, List.map_map]
    rfl
  · intro entry hentry
    obtain ⟨f, hf, rfl⟩ := List.mem_map.mp hentry
    exact finished_of_mem hes (hnames ▸ hn) (List.mem_map_of_mem hf)

/-- Complete episodes and then these calls about a last file. -/
def upTo (pre : List OutputFile) (f : OutputFile) (cs : List FileCall) : List Episode :=
  pre.map complete ++ [⟨f, cs⟩]

section UpTo

variable {pre : List OutputFile} {f : OutputFile} {cs : List FileCall} {fault : OutputFault}

theorem map_name_upTo : (upTo pre f cs).map (·.file.name) = pre.map (·.name) ++ [f.name] := by
  rw [upTo, List.map_append, List.map_map]
  rfl

theorem nodup_upTo {post : List OutputFile} (hn : ((pre ++ f :: post).map (·.name)).Nodup) :
    ((upTo pre f cs).map (·.file.name)).Nodup := by
  rw [map_name_upTo]
  refine hn.sublist ?_
  simp

theorem Broken.orderly_of_mem_upTo (h : Broken f cs fault) :
    ∀ e ∈ upTo pre f cs, e.Orderly := by
  intro e he
  rcases List.mem_append.mp he with he | he
  · exact orderly_of_mem_map_complete he
  · rw [List.mem_singleton.mp he]
    exact h.orderly

theorem Broken.findSome?_upTo (h : Broken f cs fault) :
    (allCalls (upTo pre f cs)).findSome? error? = some ⟨f.name, fault⟩ := by
  have hpre : (allCalls (pre.map complete)).findSome? error? = none :=
    List.findSome?_eq_none_iff.mpr fun _ => error?_of_mem_map_complete
  have hsplit : allCalls (upTo pre f cs) = allCalls (pre.map complete) ++ cs := by
    simp [allCalls, upTo]
  rw [hsplit, List.findSome?_append, hpre, Option.none_or, h.findSome?_error?]

theorem Broken.delivers (h : Broken f cs fault) {post : List OutputFile}
    (hn : ((pre ++ f :: post).map (·.name)).Nodup) :
    Delivers ((pre ++ f :: post).map OutputFile.entry) (allCalls (upTo pre f cs))
      (some ⟨f.name, fault⟩) := by
  have hes : ∀ e ∈ upTo pre f cs, e.Orderly := h.orderly_of_mem_upTo
  have hdistinct : ((upTo pre f cs).map (·.file.name)).Nodup := nodup_upTo hn
  have hfirst : (allCalls (upTo pre f cs)).findSome? error? = some ⟨f.name, fault⟩ :=
    h.findSome?_upTo
  refine ⟨hfirst.symm, closed_allCalls hes, ?_, by simp, ⟨by simp, fun hall => ?_⟩, ?_⟩
  · exact hdistinct.sublist (opened_allCalls_sublist hes)
  · -- The call that failed is about a file that would be finished.
    obtain ⟨c, hc, herror⟩ := List.exists_of_findSome?_eq_some hfirst
    have hfile : c.file = f.name := (name_of_error? herror).symm
    have hsound := (hall f.entry (List.mem_map_of_mem (by simp))).sound c hc hfile
    rw [hsound] at herror
    cases herror
  · rintro _ ⟨⟩
    refine ⟨pre.map OutputFile.entry, f.chunks.flatten, post.map OutputFile.entry, ?_, ?_, ?_, ?_⟩
    · rw [List.map_append, List.map_cons]
      rfl
    · rw [begun_allCalls hes, map_name_upTo, List.map_map]
      rfl
    · intro entry hentry
      obtain ⟨g, hg, rfl⟩ := List.mem_map.mp hentry
      exact finished_of_mem hes hdistinct (List.mem_append_left _ (List.mem_map_of_mem hg))
    · have hmem : (⟨f, cs⟩ : Episode) ∈ upTo pre f cs := by simp [upTo]
      have hcontent := content_allCalls hes hdistinct hmem
      exact hcontent ▸ h.orderly.content

end UpTo

end Episode

namespace FileSession

variable {σ : Type}

theorem calls_create (fs : FileSystem σ) (s : FileSession σ) (name : Text) :
    (s.create fs name).1.calls.toList =
      s.calls.toList ++ [.create name (s.create fs name).2] := by
  simp [create]

theorem calls_close (fs : FileSystem σ) (s : FileSession σ) (name : Text) :
    (s.close fs name).1.calls.toList = s.calls.toList ++ [.close name (s.close fs name).2] := by
  simp [close]

theorem file_appends (fs : FileSystem σ) (name : Text) :
    (file fs name).Appends (fun s => s.calls.toList) (fun fault t => [.write name t fault]) := by
  intro s t
  simp [file]

theorem calls_writeAll {fs : FileSystem σ} {s : FileSession σ} {name : Text} {ts : List Text}
    (h : (Latch.writeAll (file fs name) ⟨s, none⟩ ts).error = none) :
    (Latch.writeAll (file fs name) ⟨s, none⟩ ts).state.calls.toList =
      s.calls.toList ++ ts.map (.write name · none) := by
  rw [List.map_eq_flatMap]
  exact Latch.view_writeAll (file_appends fs name) h

theorem calls_writeAll_of_fault {fs : FileSystem σ} {s : FileSession σ} {name : Text}
    {pre : List Text} {t : Text} {fault : WriteFault}
    (h : Latch.FirstFault (file fs name) ⟨s, none⟩ pre t fault) (post : List Text) :
    (Latch.writeAll (file fs name) ⟨s, none⟩ (pre ++ t :: post)).state.calls.toList =
      s.calls.toList ++ pre.map (.write name · none) ++ [.write name t (some fault)] := by
  rw [List.map_eq_flatMap]
  exact Latch.view_writeAll_of_fault (file_appends fs name) h post

end FileSession

namespace FileSystem

variable {σ : Type}

theorem writeFile_of_fault {fs : FileSystem σ} {s : FileSession σ} {f : OutputFile} {reason : Text}
    (h : (s.create fs f.name).2 = some reason) :
    fs.writeFile s f = ((s.create fs f.name).1, some (.create reason)) := by
  unfold writeFile
  split
  · simp_all
  · simp_all

theorem writeFile_of_created {fs : FileSystem σ} {s : FileSession σ} {f : OutputFile}
    (h : (s.create fs f.name).2 = none) {l : Latch (FileSession σ)}
    (hl : Latch.writeAll (FileSession.file fs f.name) ⟨(s.create fs f.name).1, none⟩ f.chunks = l) :
    fs.writeFile s f = ((l.state.close fs f.name).1,
      (l.error.map .write).or ((l.state.close fs f.name).2.map .close)) := by
  unfold writeFile
  split
  · simp_all
  · rename_i hc
    rw [hc] at hl
    rw [Latch.writeUntilFault_eq, hl]

/-- The calls about one file are complete, or they break with the fault that is returned. -/
theorem calls_writeFile (fs : FileSystem σ) (s : FileSession σ) (f : OutputFile) :
    (fs.writeFile s f).2 = none ∧
        (fs.writeFile s f).1.calls.toList = s.calls.toList ++ (Episode.complete f).calls ∨
      ∃ fault cs, (fs.writeFile s f).2 = some fault ∧ Episode.Broken f cs fault ∧
        (fs.writeFile s f).1.calls.toList = s.calls.toList ++ cs := by
  have hcreate := FileSession.calls_create fs s f.name
  cases hc : (s.create fs f.name).2 with
  | some reason =>
    rw [hc] at hcreate
    rw [writeFile_of_fault hc]
    exact .inr ⟨.create reason, _, rfl, .create reason, hcreate⟩
  | none =>
    rw [hc] at hcreate
    rw [writeFile_of_created hc rfl]
    rcases Latch.writeAll_cases (d := FileSession.file fs f.name)
      (l := ⟨(s.create fs f.name).1, none⟩) rfl f.chunks with
      hopen | ⟨pre, t, post, fault, hchunks, hfirst⟩
    · rw [FileSession.calls_close, FileSession.calls_writeAll hopen, hcreate, hopen,
        Option.map_none, Option.none_or]
      cases (FileSession.close fs _ f.name).2 with
      | none => exact .inl ⟨rfl, by simp [Episode.complete]⟩
      | some reason => exact .inr ⟨.close reason, _, rfl, .close reason, by simp⟩
    · rw [FileSession.calls_close, hchunks, FileSession.calls_writeAll_of_fault hfirst, hcreate,
        Latch.writeAll_of_fault hfirst, Option.map_some, Option.some_or]
      generalize (FileSession.close fs _ f.name).2 = closing
      exact .inr ⟨.write fault.reason, _, rfl, .write hchunks fault closing, by simp⟩

/-- Files are written in their order, up to the first whose calls break. -/
theorem calls_writeFiles (fs : FileSystem σ) (s : FileSession σ) (files : List OutputFile) :
    ∃ es, (fs.writeFiles s files).1.calls.toList = s.calls.toList ++ Episode.allCalls es ∧
      ((fs.writeFiles s files).2 = none ∧ es = files.map Episode.complete ∨
        ∃ pre f post fault cs, files = pre ++ f :: post ∧
          (fs.writeFiles s files).2 = some ⟨f.name, fault⟩ ∧ Episode.Broken f cs fault ∧
          es = Episode.upTo pre f cs) := by
  induction files generalizing s with
  | nil => exact ⟨[], by simp [writeFiles, Episode.allCalls], .inl ⟨rfl, rfl⟩⟩
  | cons f rest ih =>
    rw [writeFiles]
    rcases calls_writeFile fs s f with ⟨hnone, hcalls⟩ | ⟨fault, cs, hfault, hbroken, hcalls⟩
    · split
      · simp_all
      · rename_i s' hs
        rw [hs] at hcalls
        dsimp only at hcalls
        obtain ⟨es, hrest, hes⟩ := ih s'
        refine ⟨Episode.complete f :: es, by simp [Episode.allCalls, hrest, hcalls], ?_⟩
        rcases hes with ⟨hok, rfl⟩ | ⟨pre, g, post, fault, cs, rfl, herror, hbroken, rfl⟩
        · exact .inl ⟨hok, rfl⟩
        · exact .inr ⟨f :: pre, g, post, fault, cs, rfl, herror, hbroken, rfl⟩
    · split
      · rename_i hs
        rw [hs] at hcalls hfault
        cases hfault
        exact ⟨[⟨f, cs⟩], by simpa [Episode.allCalls] using hcalls,
          .inr ⟨[], f, rest, fault, cs, rfl, rfl, hbroken, rfl⟩⟩
      · simp_all

/-- Files with names of their own are delivered, by an episode for each that was begun. -/
theorem delivers_writeFiles (fs : FileSystem σ) (s : σ) {files : List OutputFile}
    (hn : (files.map (·.name)).Nodup) :
    ∃ es, (fs.writeFiles ⟨s, #[]⟩ files).1.calls.toList = Episode.allCalls es ∧
      (∀ e ∈ es, e.Orderly) ∧ (es.map (·.file.name)).Nodup ∧
      FileCall.Delivers (files.map OutputFile.entry) (Episode.allCalls es)
        (fs.writeFiles ⟨s, #[]⟩ files).2 := by
  obtain ⟨es, hcalls, hes⟩ := fs.calls_writeFiles ⟨s, #[]⟩ files
  refine ⟨es, hcalls, ?_⟩
  rcases hes with ⟨hok, rfl⟩ | ⟨pre, f, post, fault, cs, rfl, herror, hbroken, rfl⟩
  · rw [hok, Episode.map_name_complete]
    exact ⟨fun _ => Episode.orderly_of_mem_map_complete, hn, Episode.complete_delivers hn⟩
  · rw [herror]
    exact ⟨hbroken.orderly_of_mem_upTo, Episode.nodup_upTo hn, hbroken.delivers hn⟩

/-- The files that a file system holds, by their names, change with each call as the call says. -/
structure Keeps (fs : FileSystem σ) (held : σ → Text → Text) : Prop where
  create : ∀ s name, held (fs.create s name).1 =
    FileCall.effect (.create name (fs.create s name).2) (held s)
  write : ∀ s name t, held (fs.file name s t).1 =
    FileCall.effect (.write name t (fs.file name s t).2) (held s)
  close : ∀ s name, held (fs.close s name).1 =
    FileCall.effect (.close name (fs.close s name).2) (held s)

end FileSystem

namespace FileSession

variable {σ : Type} {fs : FileSystem σ} {held : σ → Text → Text} {start : Text → Text}
  {s : FileSession σ}

/-- The files are what the calls have made of those at the start. -/
def Tracks (held : σ → Text → Text) (start : Text → Text) (s : FileSession σ) : Prop :=
  held s.state = FileCall.effects s.calls.toList start

variable (hfs : fs.Keeps held)
include hfs

theorem tracks_create (h : s.Tracks held start) (name : Text) :
    (s.create fs name).1.Tracks held start := by
  rw [Tracks, calls_create, FileCall.effects, List.foldl_concat]
  exact (hfs.create s.state name).trans (congrArg _ h)

theorem tracks_file (h : s.Tracks held start) (name t : Text) :
    (file fs name s t).1.Tracks held start := by
  have hcalls := file_appends fs name s t
  dsimp only at hcalls
  rw [Tracks, hcalls, FileCall.effects, List.foldl_concat]
  exact (hfs.write s.state name t).trans (congrArg _ h)

theorem tracks_close (h : s.Tracks held start) (name : Text) :
    (s.close fs name).1.Tracks held start := by
  rw [Tracks, calls_close, FileCall.effects, List.foldl_concat]
  exact (hfs.close s.state name).trans (congrArg _ h)

theorem tracks_writeFile (h : s.Tracks held start) (f : OutputFile) :
    (fs.writeFile s f).1.Tracks held start := by
  have hcreate := tracks_create hfs h f.name
  cases hc : (s.create fs f.name).2 with
  | some reason => rwa [FileSystem.writeFile_of_fault hc]
  | none =>
    have hwrites := Latch.state_writeAll (P := Tracks held start) (l := ⟨_, none⟩)
      (fun _ t hs => tracks_file hfs hs f.name t) hcreate f.chunks
    rw [FileSystem.writeFile_of_created hc rfl]
    exact tracks_close hfs hwrites f.name

theorem tracks_writeFiles (h : s.Tracks held start) (files : List OutputFile) :
    (fs.writeFiles s files).1.Tracks held start := by
  induction files generalizing s with
  | nil => exact h
  | cons f rest ih =>
    have hf := tracks_writeFile hfs h f
    rw [FileSystem.writeFiles]
    split
    · rename_i hs
      rwa [hs] at hf
    · rename_i hs
      rw [hs] at hf
      exact ih hf

end FileSession

namespace OutputNames

open OutputFile

/-- The names of the files that are written, in the order in which they are. -/
def chosen (names : OutputNames) : List Text :=
  [names.instructions, names.data, names.registers, names.processes, names.sequence, names.listing,
    names.config].filter (!·.isEmpty)

/-- The complete texts of the files, with their names. -/
def contents (names : OutputNames) (p : Program) : List (Text × Text) :=
  [(names.instructions, lineText p.instructionLines),
    (names.data, lineText p.dataLines),
    (names.registers, lineText p.registerLines),
    (names.processes, lineText p.startLines),
    (names.sequence, lineText p.sequenceLines),
    (names.listing, lineText p.listing.lines),
    (names.config, configText p.processCount)].filter (!·.1.isEmpty)

theorem map_name_plan (names : OutputNames) (p : Program) :
    (names.plan p).map (·.name) = names.chosen :=
  (List.filter_map (p := fun name : Text => !name.isEmpty)).symm

/-- The texts of a file come to its complete text. -/
theorem map_text_plan (names : OutputNames) (p : Program) :
    (names.plan p).map entry = names.contents p := by
  simp only [contents, ← flatten_lineChunks, ← flatten_configChunks]
  exact (List.filter_map (p := fun f : Text × Text => !f.1.isEmpty) (f := entry)).symm

end OutputNames

open FileCall in
/-- Whatever calls fail, the files of a program are created in their order up to the first that one
of its calls fails for. Each file that was created is closed once. The files before the failure are
finished, and the one where it happened holds a first part of its text, which is what the file
system has under its name. The error is that of the first call that failed, with the name of its
file, and there is none exactly if all files are finished. -/
theorem outputs_in_order {σ : Type} (fs : FileSystem σ) (s : σ) (p : Program) {names : OutputNames}
    (hn : names.chosen.Nodup) :
    let run := fs.writeFiles ⟨s, #[]⟩ (names.plan p)
    let calls := run.1.calls.toList
    Delivers (names.contents p) calls run.2 ∧
      (∀ held, fs.Keeps held → ∀ name ∈ calls.filterMap opened?,
        held run.1.state name = content name calls) ∧
      run.1.report run.2 =
        ⟨calls.filterMap begun?, (calls.filterMap opened?).map
          fun name => ⟨name, (content name calls).toArray, 1⟩, run.2⟩ := by
  intro run calls
  rw [← names.map_name_plan p] at hn
  obtain ⟨es, hcalls, hes, hdistinct, hdelivers⟩ := fs.delivers_writeFiles s hn
  have hrun : calls = Episode.allCalls es := hcalls
  rw [hrun, ← names.map_text_plan p]
  refine ⟨hdelivers, fun held hfs name hname => ?_, Episode.report_eq hrun hes hdistinct run.2⟩
  have hstart : FileSession.Tracks held (held s) ⟨s, #[]⟩ := rfl
  have htracks : held run.1.state = effects calls (held s) :=
    FileSession.tracks_writeFiles hfs hstart (names.plan p)
  rw [htracks, hrun]
  exact Episode.effects_allCalls hes hdistinct (held s) hname

/-- A file system with room for so many writes. The next one keeps three bytes, and then no file can
be closed without a failure. -/
def FileSystem.scarce : FileSystem (Nat × (Text → Text)) where
  create s name := ((s.1, FileCall.effect (.create name none) s.2), none)
  file name s t :=
    let fault := if s.1 = 0 then some ⟨3, "no room"⟩ else none
    ((s.1 - 1, FileCall.effect (.write name t fault) s.2), fault)
  close s _ := (s, if s.1 = 0 then some "busy" else none)

theorem FileSystem.scarce_keeps : FileSystem.scarce.Keeps Prod.snd :=
  ⟨fun _ _ => rfl, fun _ _ _ => rfl, fun _ _ => rfl⟩

def OutputNames.brief : OutputNames := { data := "d", registers := "r", config := "c" }

def Program.tiny : Program := { data := #[1, 2], registers := #[3, 4] }

/-- What becomes of the files when there is room for all data but not for both registers. -/
def FileSystem.scarceRun : FileSession (Nat × (Text → Text)) × Option OutputError :=
  FileSystem.scarce.writeFiles ⟨(3, fun _ => "old"), #[]⟩ (OutputNames.brief.plan Program.tiny)

/-- The configuration is not begun, and the reason why the registers could not be closed is not the
one that is given. -/
theorem outputs_in_order_scarce :
    OutputNames.brief.chosen.Nodup ∧
    FileSystem.scarceRun.2 = some ⟨"r", .write "no room"⟩ ∧
    FileCall.Delivers [("d", "01\n02\n"), ("r", "0003\n0004\n"), ("c", OutputFile.configText 0)]
      FileSystem.scarceRun.1.calls.toList FileSystem.scarceRun.2 ∧
    FileSystem.scarceRun.1.state.2 "r" = "0003\n000" ∧
    FileSystem.scarceRun.1.report FileSystem.scarceRun.2 =
      ⟨["d", "r"],
        [⟨"d", ("01\n02\n" : Text).toArray, 1⟩, ⟨"r", ("0003\n000" : Text).toArray, 1⟩],
        some ⟨"r", .write "no room"⟩⟩ := by
  have hn : OutputNames.brief.chosen.Nodup := by decide +kernel
  have hcontents : OutputNames.brief.contents Program.tiny =
      ([("d", "01\n02\n"), ("r", "0003\n0004\n"), ("c", OutputFile.configText 0)] :
        List (Text × Text)) := by
    decide +kernel
  obtain ⟨hdelivers, hheld, hreport⟩ :=
    outputs_in_order FileSystem.scarce (3, fun _ => "old") Program.tiny hn
  rw [hcontents] at hdelivers
  have hopened : ("r" : Text) ∈ FileSystem.scarceRun.1.calls.toList.filterMap FileCall.opened? := by
    decide +kernel
  exact ⟨hn, by decide +kernel, hdelivers,
    (hheld Prod.snd FileSystem.scarce_keeps "r" hopened).trans (by decide +kernel),
    hreport.trans (by decide +kernel)⟩

end BarrelAsm
