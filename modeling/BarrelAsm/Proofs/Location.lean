import BarrelAsm.Proofs.Layout
import BarrelAsm.Proofs.Symbol

/-! The location of a label or of a process is the number of words before its line. Locations come
from the first pass and words from the second; the layout of the source is between them. -/
namespace BarrelAsm

namespace Opcode

/-- The number of words that opcodes hold for the lines before line `n`. -/
def wordsBefore (n : Nat) (ops : List Opcode) : Nat :=
  ((ops.filter fun op => op.line < (n : Int)).map fun op => op.words.length).sum

theorem wordsBefore_concat (n : Nat) (ops : List Opcode) (op : Opcode) :
    wordsBefore n (ops ++ [op]) =
      wordsBefore n ops + if op.line < (n : Int) then op.words.length else 0 := by
  unfold wordsBefore
  rw [List.filter_append]
  split_ifs with h <;> simp [h]

theorem wordsBefore_congr {m n : Nat} {ops : List Opcode}
    (h : ∀ op ∈ ops, op.line < (m : Int) ↔ op.line < (n : Int)) :
    wordsBefore m ops = wordsBefore n ops := by
  unfold wordsBefore
  rw [List.filter_congr fun op hop => decide_eq_decide.mpr (h op hop)]

end Opcode

/-- The opcodes of lines: one for each line that stands for words, at the address where the lines
before it end. -/
inductive Emitted : List Line → List Opcode → Prop where
  | nil : Emitted [] []
  | silent {lines : List Line} {ops : List Opcode} {line : Line} (h : Emitted lines ops)
      (hs : line.size = 0) : Emitted (lines ++ [line]) ops
  | words {lines : List Line} {ops : List Opcode} {line : Line} {ws : List Word}
      (h : Emitted lines ops) (hw : ws.length = line.size) (hs : 0 < line.size) :
      Emitted (lines ++ [line]) (ops ++ [⟨line.number, Source.size lines, ws, line.text⟩])

namespace Emitted

variable {lines : List Line} {ops : List Opcode}

theorem line_le (h : Emitted lines ops) (hn : Line.Numbered lines) :
    ∀ op ∈ ops, op.line ≤ (lines.length : Int) := by
  induction h with
  | nil => simp
  | silent _ _ ih =>
    intro op hop
    have := ih (hn.of_prefix (List.prefix_append _ _)) op hop
    rw [List.length_append]
    omega
  | @words lines ops line ws _ _ _ ih =>
    intro op hop
    rw [List.length_append, List.length_singleton]
    rcases List.mem_append.mp hop with hop | hop
    · have := ih (hn.of_prefix (List.prefix_append _ _)) op hop
      omega
    · rw [List.mem_singleton.mp hop]
      have := hn.number_eq (List.prefix_refl (lines ++ [line]))
      dsimp only
      omega

theorem eq_of_line (h : Emitted lines ops) (hn : Line.Numbered lines) {o o' : Opcode} (ho : o ∈ ops)
    (ho' : o' ∈ ops) (he : o.line = o'.line) : o = o' := by
  have hnodup : (ops.map Opcode.line).Nodup := by
    clear ho ho' he
    induction h with
    | nil => exact List.nodup_nil
    | silent _ _ ih => exact ih (hn.of_prefix (List.prefix_append _ _))
    | @words lines ops line ws h _ _ ih =>
      have hn' := hn.of_prefix (List.prefix_append lines [line])
      have hline := hn.number_eq (List.prefix_refl (lines ++ [line]))
      rw [List.map_append, List.map_singleton, ← List.concat_eq_append, List.nodup_concat]
      refine ⟨?_, ih hn'⟩
      intro hm
      obtain ⟨op, hop, heq⟩ := List.mem_map.mp hm
      have hle := h.line_le hn' op hop
      dsimp only at heq
      omega
  exact List.inj_on_of_nodup_map hnodup ho ho' he

theorem length_words (h : Emitted lines ops) :
    (ops.flatMap Opcode.words).length = Source.size lines := by
  induction h with
  | nil => rfl
  | silent _ hs ih => simp [ih, hs]
  | words _ hw _ ih => simp [ih, hw]

theorem wordsBefore_of_length_lt (h : Emitted lines ops) (hn : Line.Numbered lines) {m : Nat}
    (hm : lines.length < m) :
    Opcode.wordsBefore m ops = Opcode.wordsBefore (lines.length + 1) ops := by
  refine Opcode.wordsBefore_congr fun op hop => ?_
  have := h.line_le hn op hop
  omega

/-- Up to any line, the opcodes hold the words that the layout says. -/
theorem wordsBefore_eq (h : Emitted lines ops) (hn : Line.Numbered lines) {k : Nat}
    (hk : k ≤ lines.length) : Opcode.wordsBefore (k + 1) ops = Source.size (lines.take k) := by
  induction h generalizing k with
  | nil => simp [Opcode.wordsBefore]
  | @silent lines ops line h hs ih =>
    have hn' := hn.of_prefix (List.prefix_append lines [line])
    rw [List.length_append, List.length_singleton] at hk
    rcases Nat.lt_or_eq_of_le hk with hk | rfl
    · rw [List.take_append_of_le_length (by omega)]
      exact ih hn' (by omega)
    · rw [h.wordsBefore_of_length_lt hn' (by omega), ih hn' (Nat.le_refl _), List.take_length,
        List.take_of_length_le (by simp)]
      simp [hs]
  | @words lines ops line ws h hw hs ih =>
    have hn' := hn.of_prefix (List.prefix_append lines [line])
    have hline := hn.number_eq (List.prefix_refl (lines ++ [line]))
    rw [List.length_append, List.length_singleton] at hk
    rw [Opcode.wordsBefore_concat]
    rcases Nat.lt_or_eq_of_le hk with hk | rfl
    · rw [if_neg (by dsimp only; omega), List.take_append_of_le_length (by omega)]
      exact ih hn' (by omega)
    · rw [if_pos (by dsimp only; omega), h.wordsBefore_of_length_lt hn' (by omega),
        ih hn' (Nat.le_refl _), List.take_length, List.take_of_length_le (by simp)]
      simp [hw]

theorem size_eq_wordsBefore (h : Emitted lines ops) (hn : Line.Numbered lines) {pre : List Line}
    {line : Line} (hp : pre ++ [line] <+: lines) :
    Source.size pre = Opcode.wordsBefore line.number ops := by
  have hpre : lines.take pre.length = pre :=
    (List.prefix_iff_eq_take.mp ((List.prefix_append pre [line]).trans hp)).symm
  have hlen := hp.length_le
  rw [List.length_append] at hlen
  rw [hn.number_eq hp, h.wordsBefore_eq hn (by omega), hpre]

/-- The first opcode of a line or of a later one is where the words before that line end. -/
theorem address_of_find? (h : Emitted lines ops) (hn : Line.Numbered lines) {k : Nat} {op : Opcode}
    (hf : ops.find? (fun op => ((k + 1 : Nat) : Int) ≤ op.line) = some op) :
    op.address = Source.size (lines.take k) := by
  induction h with
  | nil => cases hf
  | @silent lines ops line h hs ih =>
    have hn' := hn.of_prefix (List.prefix_append lines [line])
    have hle := h.line_le hn' op (List.mem_of_find?_eq_some hf)
    have hk := List.find?_some hf
    simp only [decide_eq_true_eq] at hk
    rw [List.take_append_of_le_length (by omega)]
    exact ih hn' hf
  | @words lines ops line ws h hw hs ih =>
    have hn' := hn.of_prefix (List.prefix_append lines [line])
    have hline := hn.number_eq (List.prefix_refl (lines ++ [line]))
    rw [List.find?_append] at hf
    cases hold : ops.find? (fun op => ((k + 1 : Nat) : Int) ≤ op.line) with
    | some op' =>
      rw [hold, Option.some_or] at hf
      cases hf
      have hle := h.line_le hn' op (List.mem_of_find?_eq_some hold)
      have hk := List.find?_some hold
      simp only [decide_eq_true_eq] at hk
      rw [List.take_append_of_le_length (by omega)]
      exact ih hn' hold
    | none =>
      -- Nothing was emitted from line `k + 1` up to here, so the lines between stand for no words.
      rw [hold, Option.none_or] at hf
      have hk := List.find?_some hf
      obtain rfl := List.mem_singleton.mp (List.mem_of_find?_eq_some hf)
      simp only [decide_eq_true_eq] at hk
      have hle := h.line_le hn'
      have hlt : ∀ op ∈ ops, op.line < ((k + 1 : Nat) : Int) := by
        intro op hop
        simpa using List.find?_eq_none.mp hold op hop
      have hall : Opcode.wordsBefore (k + 1) ops = Opcode.wordsBefore (lines.length + 1) ops :=
        Opcode.wordsBefore_congr fun op hop => by
          have := hle op hop
          have := hlt op hop
          omega
      rw [h.wordsBefore_eq hn' (by omega), h.wordsBefore_eq hn' (Nat.le_refl _),
        List.take_length] at hall
      rw [List.take_append_of_le_length (by omega), hall]

end Emitted

theorem PseudoOp.size_pos (op : PseudoOp) : 0 < op.size := by
  cases op <;> simp [PseudoOp.size]

namespace Assembly

variable {a b : Assembly} {line : Line} {lines : List Line}

theorem Generated.opcodes (h : Generated a line line.body b) :
    (line.size = 0 ∧ b.opcodes = a.opcodes) ∨
      ∃ ws, ws.length = line.size ∧ 0 < line.size ∧
        b.opcodes = a.opcodes.push ⟨line.number, a.pc, ws, line.text⟩ := by
  generalize hb : line.body = ts at h
  cases h with
  | lone => exact .inl ⟨by simp [Line.size, hb], rfl⟩
  | declaration hk => exact .inl ⟨by rcases hk with hk | hk | hk <;> simp [Line.size, hb, hk], rfl⟩
  | opening hk => exact .inl ⟨by simp [Line.size, hb, hk], rfl⟩
  | closing hk => exact .inl ⟨by simp [Line.size, hb, hk], rfl⟩
  | instruction hk => exact .inr ⟨_, by simp [Line.size, hb, hk], by simp [Line.size, hb, hk], rfl⟩
  | @pseudo t ts op p c r hk ho hp hs =>
    obtain ⟨hpc, -, hops⟩ := scratchFor_place hs
    have hsize : line.size = op.size := by simp [Line.size, hb, hk, pseudoSize, ho]
    refine .inr ⟨p.words r, ?_, ?_, ?_⟩
    · rw [Pseudo.length_words, Pseudo.op_of_read hp, hsize]
    · rw [hsize]
      exact PseudoOp.size_pos op
    · simp [emitExpansion, hops, hpc]

theorem Declared.opcodes {ts : List Token} (h : Declared a line ts b) : b.opcodes = a.opcodes := by
  cases h <;> rfl

theorem firstPass_opcodes (h : runLines firstPass lines a = (b, none)) : b.opcodes = a.opcodes := by
  refine runLines_induction (P := fun _ x => x.opcodes = a.opcodes) h rfl ?_
  intro pre line c d _ _ hc hd
  rcases firstPass_ok hd with ⟨-, rfl⟩ | ⟨s, e, -, he, hb⟩
  · exact hc
  · rw [hb.opcodes, defineLabels_eq he]
    exact hc

theorem secondPass_emitted (ha : a.opcodes = #[])
    (h : runLines secondPass lines a.restart = (b, none)) : Emitted lines b.opcodes.toList := by
  refine runLines_induction (P := fun ls x => Emitted ls x.opcodes.toList) h ?_ ?_
  · change Emitted [] a.opcodes.toList
    rw [ha]
    exact .nil
  · intro pre line c d _ hrun hc hd
    obtain ⟨hpc, -⟩ := secondPass_place hrun
    rcases secondPass_ok hd with ⟨hn, rfl⟩ | ⟨s, hs, hg⟩
    · exact hc.silent (Line.size_of_nil (Line.body_of_none hn))
    · rw [← Line.body_of_some hs] at hg
      rcases hg.opcodes with ⟨hz, he⟩ | ⟨ws, hw, hpos, he⟩
      · rw [he]
        exact hc.silent hz
      · rw [he, Array.toList_push]
        change Emitted _ (c.opcodes.toList ++ [⟨line.number, c.pc, ws, line.text⟩])
        rw [hpc]
        exact hc.words hw hpos

theorem secondPass_opcodes_grow (h : runLines secondPass lines a = (b, none)) :
    a.opcodes.toList <+: b.opcodes.toList := by
  refine runLines_induction (P := fun _ x => a.opcodes.toList <+: x.opcodes.toList) h
    (List.prefix_refl _) ?_
  intro pre line c d _ _ hc hd
  rcases secondPass_ok hd with ⟨-, rfl⟩ | ⟨s, hs, hg⟩
  · exact hc
  · rw [← Line.body_of_some hs] at hg
    rcases hg.opcodes with ⟨-, he⟩ | ⟨ws, -, -, he⟩
    · rw [he]
      exact hc
    · rw [he, Array.toList_push]
      exact hc.trans (List.prefix_append _ _)

theorem defineLabels_labelAt {ls : List Text} (h : defineLabels ls a = (b, none)) (name : Text)
    (location : Int) :
    b.symbols.LabelAt name location ↔
      a.symbols.LabelAt name location ∨ ∃ l ∈ ls, name = a.qualify l ∧ location = a.pc :=
  defineLabels_iff (R := fun t => t.LabelAt name location) h fun _ _ _ hs =>
    SymbolTable.labelAt_insert_label hs rfl name location

theorem nameRegister_ok {name : Text} {value : Int} {symbols : SymbolTable}
    (h : a.nameRegister name value = .ok symbols) :
    a.registerNext < registerLimit ∧
      a.symbols.insert name ⟨.register, value, 1, a.registerNext⟩ = .ok symbols := by
  unfold nameRegister at h
  split_ifs at h with hl
  exact ⟨by omega, h⟩

theorem Declared.labelAt {ts : List Token} (h : Declared a line ts b) (name : Text)
    (location : Int) : b.symbols.LabelAt name location ↔ a.symbols.LabelAt name location := by
  cases h with
  | register hk hr hs =>
    exact SymbolTable.labelAt_insert_other (nameRegister_ok hs).2 (by simp) name location
  | const hk hp hr hs => exact SymbolTable.labelAt_insert_other hs (by simp) name location
  | data hk hr hs => exact SymbolTable.labelAt_insert_other hs (by simp) name location
  | _ => exact Iff.rfl

theorem firstPass_labelAt (h : firstPass line a = (b, none)) (name : Text) (location : Int) :
    b.symbols.LabelAt name location ↔ a.symbols.LabelAt name location ∨
      ∃ l ∈ line.labels, name = a.qualify l ∧ location = a.pc := by
  rcases firstPass_ok h with ⟨hn, rfl⟩ | ⟨s, c, hs, hc, hb⟩
  · rw [Line.labels_of_none hn]
    simp [list, visit]
  · rw [hb.labelAt, defineLabels_labelAt hc, Line.labels_of_some hs]
    rfl

/-- The second pass adds no symbols but scratch registers. -/
theorem Generated.symbols {ts : List Token} (h : Generated a line ts b) :
    b.symbols = a.symbols ∨ ∃ sym, sym.kind = .register ∧
      a.symbols.insert (scratchName a.process) sym = .ok b.symbols := by
  cases h with
  | pseudo hk ho hp hs =>
    rcases scratchFor_ok hs with ⟨-, rfl⟩ | ⟨-, hs⟩
    · exact .inl rfl
    · rcases scratch_ok hs with ⟨_, -, rfl, -⟩ | ⟨symbols, -, hr, rfl, -⟩
      · exact .inl rfl
      · exact .inr ⟨_, rfl, (nameRegister_ok hr).2⟩
  | _ => exact .inl rfl

theorem Generated.labelAt {ts : List Token} (h : Generated a line ts b) (name : Text)
    (location : Int) : b.symbols.LabelAt name location ↔ a.symbols.LabelAt name location := by
  rcases h.symbols with he | ⟨sym, hk, hs⟩
  · rw [he]
  · exact SymbolTable.labelAt_insert_other hs (by simp [hk]) name location

theorem kind_of_constants {c : Constants} {name : Text} {sym : Symbol}
    (h : c.symbols.get? name = some sym) : sym.kind = .const := by
  obtain ⟨l₁, l₂, he, -⟩ := List.lookup_eq_some_iff.mp h
  have hm : (name, sym) ∈ c.symbols.entries := by
    rw [he]
    simp
  obtain ⟨e, -, hes⟩ := List.mem_map.mp hm
  cases hes
  rfl

theorem isSome_get?_constants (c : Constants) (name : Text) :
    (c.symbols.get? name).isSome ↔ (c.get? name).isSome := by
  have hnone : c.symbols.get? name = none ↔ c.get? name = none := by
    simp only [SymbolTable.get?, Constants.get?, Constants.symbols, List.lookup_eq_none_iff,
      List.forall_mem_map, List.mem_mergeSort]
  rw [Option.isSome_iff_ne_none, Option.isSome_iff_ne_none]
  exact not_congr hnone

theorem not_labelAt_constants (c : Constants) (name : Text) (location : Int) :
    ¬c.symbols.LabelAt name location := by
  rintro ⟨sym, hs, hk, -⟩
  rw [kind_of_constants hs] at hk
  cases hk

/-- After the first pass there is a label for each one written in front of a statement, and no
other. -/
theorem firstPass_labels {constants : Constants} {n : Nat}
    (h : runLines firstPass lines (initial constants n) = (a, none)) (name : Text)
    (location : Int) :
    a.symbols.LabelAt name location ↔
      ∃ pre line, pre ++ [line] <+: lines ∧
        (∃ l ∈ line.labels, name = Scope.qualifier (Source.process pre) ++ l) ∧
        location = Source.size pre := by
  refine runLines_induction (P := fun ls x => x.symbols.LabelAt name location ↔
    ∃ pre line, pre ++ [line] <+: ls ∧
      (∃ l ∈ line.labels, name = Scope.qualifier (Source.process pre) ++ l) ∧
      location = Source.size pre) h ?_ ?_
  · have hno := not_labelAt_constants constants name location
    change constants.symbols.LabelAt name location ↔ _
    simpa using hno
  · intro pre line c d _ hrun hc hd
    obtain ⟨hpc, hp⟩ := firstPass_place hrun
    rw [firstPass_labelAt hd, hc, Source.exists_prefix_concat, hpc]
    simp only [qualify, hp, exists_and_right, ← and_assoc]

theorem secondPass_labels (h : runLines secondPass lines a = (b, none)) (name : Text)
    (location : Int) : b.symbols.LabelAt name location ↔ a.symbols.LabelAt name location := by
  refine runLines_induction
    (P := fun _ x => x.symbols.LabelAt name location ↔ a.symbols.LabelAt name location) h Iff.rfl ?_
  intro pre line c d _ _ hc hd
  rcases secondPass_ok hd with ⟨-, rfl⟩ | ⟨s, -, hg⟩
  · exact hc
  · exact (hg.labelAt name location).trans hc

/-- After the first pass there is a slot for each process that a line opens, and no other. -/
theorem firstPass_entries {constants : Constants} {n : Nat}
    (h : runLines firstPass lines (initial constants n) = (a, none)) (name : Text)
    (location : Int) :
    (name, location) ∈ a.processes.entries ↔
      ∃ pre line, pre ++ [line] <+: lines ∧ line.opens? = some name ∧
        location = Source.size pre := by
  refine runLines_induction (P := fun ls x => (name, location) ∈ x.processes.entries ↔
    ∃ pre line, pre ++ [line] <+: ls ∧ line.opens? = some name ∧ location = Source.size pre) h ?_ ?_
  · change (name, location) ∈ ({} : Registry).entries ↔ _
    simp [Registry.entries]
  · intro pre line c d _ hrun hc hd
    have hwf := firstPass_wellFormed hrun
    obtain ⟨hpc, -⟩ := firstPass_place hrun
    rcases firstPass_processes hd with ⟨ho, he⟩ | ⟨opened, ho, -, hr⟩
    · rw [he, hc, Source.exists_prefix_concat, ho]
      simp
    · rw [hwf.mem_entries_register hr, hc, Source.exists_prefix_concat, ho, hpc, Prod.mk.injEq,
        Option.some.injEq, eq_comm]

end Assembly

/-- In a program, labels and processes are located at the number of words that the opcodes hold for
the lines before. The next word from there on has this address. -/
theorem location_eq_wordsBefore {constants : Constants} {texts : List Text} {a : Assembly}
    {program : Program} (h : Assembly.run constants (Line.ofTexts texts) = (a, .ok program)) :
    (∀ name location, a.symbols.LabelAt name location ↔
      ∃ pre line, pre ++ [line] <+: Line.ofTexts texts ∧
        (∃ l ∈ line.labels, name = Scope.qualifier (Source.process pre) ++ l) ∧
        location = Opcode.wordsBefore line.number program.opcodes.toList) ∧
    (∀ name location, (name, location) ∈ a.processes.entries ↔
      ∃ pre line, pre ++ [line] <+: Line.ofTexts texts ∧ line.opens? = some name ∧
        location = Opcode.wordsBefore line.number program.opcodes.toList) ∧
    ∀ line ∈ Line.ofTexts texts, ∀ op,
      program.opcodes.toList.find? (fun op => (line.number : Int) ≤ op.line) = some op →
      op.address = Opcode.wordsBefore line.number program.opcodes.toList := by
  obtain ⟨one, two, hone, -, htwo, -, rfl, rfl⟩ := Assembly.run_ok h
  have hn := Line.numbered_ofTexts texts
  have hem : Emitted (Line.ofTexts texts) two.opcodes.toList :=
    Assembly.secondPass_emitted (Assembly.firstPass_opcodes hone) htwo
  have hsite : ∀ {R : List Line → Line → Prop} {location : Int},
      (∃ pre line, pre ++ [line] <+: Line.ofTexts texts ∧ R pre line ∧
          location = Source.size pre) ↔
        ∃ pre line, pre ++ [line] <+: Line.ofTexts texts ∧ R pre line ∧
          location = Opcode.wordsBefore line.number two.opcodes.toList := by
    intro R location
    refine exists_congr fun pre => exists_congr fun line => and_congr_right fun hp => ?_
    rw [hem.size_eq_wordsBefore hn hp]
  refine ⟨fun name location => ?_, fun name location => ?_, ?_⟩
  · change two.symbols.LabelAt name location ↔ _
    rw [Assembly.secondPass_labels htwo]
    change one.symbols.LabelAt name location ↔ _
    rw [Assembly.firstPass_labels hone]
    exact hsite
  · change (name, location) ∈ two.processes.entries ↔ _
    rw [Assembly.secondPass_processes htwo]
    change (name, location) ∈ one.processes.finalize.entries ↔ _
    rw [Registry.mem_entries_finalize, Assembly.firstPass_entries hone]
    exact hsite
  · intro line hl op hf
    obtain ⟨pre, post, he⟩ := List.append_of_mem hl
    have hp : pre ++ [line] <+: Line.ofTexts texts := ⟨post, by rw [he]; simp⟩
    have hpre : (Line.ofTexts texts).take pre.length = pre := by rw [he]; simp
    rw [hn.number_eq hp] at hf
    rw [hem.address_of_find? hn hf, hpre, hem.size_eq_wordsBefore hn hp]
    rfl

theorem location_eq_wordsBefore_sample :
    ∃ a program, Assembly.run {} (Line.ofTexts Source.sample) = (a, .ok program) ∧
      a.symbols.LabelAt "worker.b.again" (Opcode.wordsBefore 14 program.opcodes.toList) := by
  obtain ⟨a, program, h⟩ := Source.run_sample
  refine ⟨a, program, h, ((location_eq_wordsBefore h).1 _ _).mpr ?_⟩
  exact ⟨(Line.ofTexts Source.sample).take 13, ⟨14, "again: nop"⟩, by decide +kernel,
    ⟨"again", by decide +kernel, by decide +kernel⟩, rfl⟩

end BarrelAsm
