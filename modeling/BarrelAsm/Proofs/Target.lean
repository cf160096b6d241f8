import BarrelAsm.Proofs.Block
import BarrelAsm.Proofs.Token
import BarrelAsm.Proofs.Word

/-! Where the labels that statements name are defined: in the block of the statement, never in
another process. -/
namespace BarrelAsm

/-- For an operation that takes a label, the word of its expansion that holds the label, and the
instruction of that word. -/
def PseudoOp.labelWord? : PseudoOp → Option (Nat × ImmediateOp)
  | call | jmp => some (0, .jal)
  | djnz => some (1, .jnz)
  | branch _ | bitBranch _ => some (0, .ldi)
  | _ => none

/-- The last operand is a label, and word `n` of the expansion is the instruction `i` with its
address. -/
def TakesLabel (s : Scope) (n : Nat) (i : ImmediateOp) (x : Reader Pseudo) : Prop :=
  ∀ ts p, x ts = (.ok p, []) → ∃ u location, [u] <:+ ts ∧ u.kind = .identifier ∧
    s.labelNamed u.text = .ok location ∧
    ∀ r, ∃ t, (p.expansion r)[n]? = some (.immediate i t (UInt16.ofInt location))

namespace TakesLabel

variable {s : Scope} {n : Nat} {i : ImmediateOp}

theorem bind {α : Type} {x : Reader α} {f : α → Reader Pseudo} (hx : x.Advances)
    (hf : ∀ a, TakesLabel s n i (f a)) : TakesLabel s n i (x >>= f) := by
  intro ts p h
  obtain ⟨a, mid, ha, hp⟩ := Stateful.bind_ok h
  obtain ⟨u, location, hu, hrest⟩ := hf a mid p hp
  exact ⟨u, location, hu.trans (hx.suffix ha), hrest⟩

theorem target {f : UInt16 → Pseudo}
    (hf : ∀ v r, ∃ t, ((f v).expansion r)[n]? = some (.immediate i t v)) :
    TakesLabel s n i (Reader.target s >>= fun v => pure (f v)) := by
  intro ts p h
  obtain ⟨v, mid, hv, hp⟩ := Stateful.bind_ok h
  obtain ⟨rfl, rfl⟩ := Reader.pure_ok hp
  obtain ⟨location, mid, hl, hv⟩ := Stateful.bind_ok hv
  obtain ⟨rfl, rfl⟩ := Reader.pure_ok hv
  obtain ⟨u, mid, hu, hl⟩ := Stateful.bind_ok hl
  obtain ⟨hnamed, rfl⟩ := Reader.lift_ok hl
  obtain ⟨rfl, hk⟩ := Reader.expect_ok hu
  exact ⟨u, location, List.suffix_refl _, by simpa using hk, hnamed, hf _⟩

end TakesLabel

theorem Pseudo.takesLabel_read (s : Scope) {op : PseudoOp} {n : Nat} {i : ImmediateOp}
    (h : op.labelWord? = some (n, i)) : TakesLabel s n i (Pseudo.read s op) := by
  cases op with
  | jmp =>
    cases h
    exact .target fun _ _ => ⟨_, rfl⟩
  | call =>
    cases h
    exact .bind (.register s) fun _ => .bind .comma fun _ => .target fun _ _ => ⟨_, rfl⟩
  | djnz =>
    cases h
    exact .bind (.register s) fun _ => .bind .comma fun _ => .target fun _ _ => ⟨_, rfl⟩
  | branch =>
    cases h
    exact .bind (.register s) fun _ => .bind .comma fun _ => .bind (.register s) fun _ =>
      .bind .comma fun _ => .target fun _ _ => ⟨_, rfl⟩
  | bitBranch =>
    cases h
    exact .bind (.register s) fun _ => .bind .comma fun _ => .bind (.bit s) fun _ =>
      .bind .comma fun _ => .target fun _ _ => ⟨_, rfl⟩
  | _ => cases h

theorem Scope.labelNamed_ok {s : Scope} {name : Text} {location : Int}
    (h : s.labelNamed name = .ok location) :
    s.symbols.LabelAt (qualifier s.process ++ name) location ∨ s.symbols.LabelAt name location := by
  obtain ⟨sym, hs, hk⟩ := except_bind_ok h
  have hlabel : sym.kind = .label ∧ sym.location = location := by
    split_ifs at hk with hkind
    cases hk
    exact ⟨hkind, rfl⟩
  rcases SymbolTable.lookup_ok hs with hget | hget
  · exact .inl ⟨sym, hget, hlabel⟩
  · exact .inr ⟨sym, hget, hlabel⟩

namespace Line

theorem lawful_of_mem_body {l : Line} {t : Token} (h : t ∈ l.body) : t.Lawful := by
  cases hs : Statement.ofLine? l.text with
  | none =>
    rw [body_of_none hs] at h
    cases h
  | some s =>
    rw [body_of_some hs] at h
    exact Statement.lawful_body hs t h

theorem dot_notMem_of_mem_labels {l : Line} {name : Text} (h : name ∈ l.labels) :
    (46 : UInt8) ∉ name := by
  cases hs : Statement.ofLine? l.text with
  | none =>
    rw [labels_of_none hs] at h
    cases h
  | some s =>
    rw [labels_of_some hs] at h
    exact Statement.dot_notMem_labels hs name h

end Line

namespace Assembly

variable {constants : Constants} {k : Nat} {lines : List Line} {a b : Assembly}

/-- The name of a label is that of its process and that in front of the statement. -/
theorem exists_of_labelAt (h : runLines firstPass lines (initial constants k) = (a, none))
    {full : Text} {location : Int} (hl : a.symbols.LabelAt full location) :
    ∃ p pre line name, pre ++ [line] <+: lines ∧ Source.process pre = some p ∧
      name ∈ line.labels ∧ full = p ++ 46 :: name ∧ location = Source.size pre := by
  obtain ⟨pre, line, hp, ⟨name, hname, rfl⟩, hloc⟩ := (firstPass_labels h full location).mp hl
  obtain ⟨p, hproc⟩ := process_isSome_of_labels h hp hname
  exact ⟨p, pre, line, name, hp, hproc, hname, by simp [hproc, Scope.qualifier], hloc⟩

/-- What a name without a dot finds among the labels was defined in the same process. -/
theorem exists_of_labelNamed (h : runLines firstPass lines (initial constants k) = (a, none))
    {s : Scope} (hs : ∀ full location, s.symbols.LabelAt full location ↔
      a.symbols.LabelAt full location)
    {name : Text} (hdot : (46 : UInt8) ∉ name) {location : Int}
    (hl : s.labelNamed name = .ok location) :
    ∃ p pre line, s.process = some p ∧ pre ++ [line] <+: lines ∧ Source.process pre = some p ∧
      name ∈ line.labels ∧ a.symbols.LabelAt (p ++ 46 :: name) location ∧
      location = Source.size pre := by
  -- The global scope has no labels, since their names have a dot.
  have hglobal : ¬a.symbols.LabelAt name location := by
    intro hat
    obtain ⟨p, _, _, l, _, _, _, rfl, _⟩ := exists_of_labelAt h hat
    simp at hdot
  rcases Scope.labelNamed_ok hl with hat | hat
  · rw [hs] at hat
    cases hproc : s.process with
    | none =>
      rw [hproc] at hat
      exact absurd hat hglobal
    | some p =>
      rw [hproc, Scope.qualifier, List.append_assoc] at hat
      obtain ⟨q, pre, line, l, hp, hq, hmem, hfull, hloc⟩ := exists_of_labelAt h hat
      obtain ⟨rfl, rfl⟩ :=
        Text.append_sep_inj_right hdot (Line.dot_notMem_of_mem_labels hmem) hfull
      exact ⟨p, pre, line, rfl, hp, hq, hmem, hat, hloc⟩
  · exact absurd ((hs _ _).mp hat) hglobal

theorem Generated.label_word {line : Line} {t : Token} {ts : List Token} {op : PseudoOp} {n : Nat}
    {i : ImmediateOp} (h : Generated a line (t :: ts) b) (hk : t.kind = .pseudo)
    (ho : PseudoOp.ofName? t.text = some op) (hw : op.labelWord? = some (n, i)) :
    ∃ u location, [u] <:+ ts ∧ u.kind = .identifier ∧ a.scope.labelNamed u.text = .ok location ∧
      ∃ o w, b.opcodes = a.opcodes.push o ∧ o.line = line.number ∧ o.words[n]? = some w ∧
        w.opcode = i.opcode ∧ w.immediate = UInt16.ofInt location := by
  cases h with
  | @pseudo _ _ op' p c r _ ho' hp hs =>
    obtain rfl : op = op' := Option.some.inj (ho.symm.trans ho')
    obtain ⟨u, location, hu, huk, hl, hword⟩ := Pseudo.takesLabel_read a.scope hw ts p hp
    obtain ⟨target, hword⟩ := hword r
    obtain ⟨-, -, hops⟩ := scratchFor_place hs
    refine ⟨u, location, hu, huk, hl, _, Word.makeImmediate i.opcode target (UInt16.ofInt location),
      by rw [← hops]; rfl, rfl, ?_, by simp, by simp⟩
    dsimp only
    rw [Pseudo.words_eq_map_expansion, List.getElem?_map, hword]
    rfl
  | declaration hk' => rcases hk' with hk' | hk' | hk' <;> simp [hk] at hk'
  | opening hk' => simp [hk] at hk'
  | closing hk' => simp [hk] at hk'
  | instruction hk' => simp [hk] at hk'

/-- The passes put the address of a label of the same block into the word of a statement that takes
one. -/
theorem exists_target {two : Assembly}
    (hone : runLines firstPass lines (initial constants k) = (a, none))
    (htwo : runLines secondPass lines a.restart = (two, none)) {pre : List Line} {line : Line}
    (hp : pre ++ [line] <+: lines) {t : Token} {ts : List Token} (hb : line.body = t :: ts)
    (hk : t.kind = .pseudo) {op : PseudoOp} (ho : PseudoOp.ofName? t.text = some op) {n : Nat}
    {i : ImmediateOp} (hw : op.labelWord? = some (n, i)) :
    ∃ (b : Block lines) (u : Token) (site : List Line) (d : Line), b.Holds pre line ∧ [u] <:+ ts ∧
      b.Holds site d ∧ u.text ∈ d.labels ∧
      a.symbols.LabelAt (b.name ++ 46 :: u.text) (Source.size site) ∧
      ∃ o w, o ∈ two.opcodes.toList ∧ o.line = line.number ∧ o.words[n]? = some w ∧
        w.opcode = i.opcode ∧ w.immediate = UInt16.ofInt (Source.size site) := by
  obtain ⟨c, d, post, hc, hd, hlater⟩ := runLines_at_ok hp htwo
  obtain ⟨-, hcp⟩ := secondPass_place hc
  rcases secondPass_ok hd with ⟨hn, -⟩ | ⟨s, hs, hg⟩
  · rw [Line.body_of_none hn] at hb
    cases hb
  · rw [← Line.body_of_some hs, hb] at hg
    obtain ⟨u, location, hu, huk, hl, o, w, hops, hline, hword⟩ := hg.label_word hk ho hw
    have hlaw : u.Lawful := Line.lawful_of_mem_body (l := line)
      (hb ▸ List.mem_cons_of_mem _ (hu.subset (List.mem_singleton_self u)))
    rw [Token.Lawful, huk] at hlaw
    have hdot := Text.dot_notMem_of_all (Text.all_isWordByte_of_isName hlaw)
    obtain ⟨p, site, line', hproc, hsite, hsp, hmem, hat, rfl⟩ :=
      exists_of_labelNamed hone (secondPass_labels hc) hdot hl
    have hpre : Source.process pre = some p := hcp.symm.trans hproc
    obtain ⟨b, rfl⟩ := exists_block hone ((List.prefix_append _ _).trans hp) hpre
    refine ⟨b, u, site, line', holds_of_process hone b hp hpre, hu,
      holds_of_process hone b hsite hsp, hmem, hat, o, w, ?_, hline, hword⟩
    refine (secondPass_opcodes_grow hlater).subset ?_
    rw [hops, Array.toList_push]
    simp

end Assembly

/-- A statement that takes a label is in a process, or the assembly fails. The label is defined in
the block of the statement, and its location, which is between the ends of the block, is what the
word of the statement holds; 16 bits are enough for it in a program of at most 65535 words. -/
theorem label_in_block {constants : Constants} {texts : List Text} {pre : List Line} {line : Line}
    {t : Token} {ts : List Token} {op : PseudoOp} {n : Nat} {i : ImmediateOp}
    (hp : pre ++ [line] <+: Line.ofTexts texts) (hb : line.body = t :: ts) (hk : t.kind = .pseudo)
    (ho : PseudoOp.ofName? t.text = some op) (hw : op.labelWord? = some (n, i)) :
    ((∀ b : Block (Line.ofTexts texts), ¬b.Holds pre line) →
      ∃ d, (Assembly.run constants (Line.ofTexts texts)).2 = .error d) ∧
    ∀ a program, Assembly.run constants (Line.ofTexts texts) = (a, .ok program) →
      ∃ (b : Block (Line.ofTexts texts)) (u : Token) (start location : Nat) (e : Assembly),
        b.Holds pre line ∧ ts.getLast? = some u ∧
        (∃ site d, b.Holds site d ∧ u.text ∈ d.labels) ∧
        a.symbols.LabelAt (b.name ++ 46 :: u.text) location ∧
        (b.name, (start : Int)) ∈ a.processes.entries ∧
        runLines Assembly.firstPass (b.before ++ b.opening :: b.inside)
          (Assembly.initial constants (Line.ofTexts texts).length) = (e, none) ∧
        start ≤ location ∧ location ≤ e.pc ∧
        (∃ o ∈ program.opcodes.toList, o.line = line.number) ∧
        ∀ o ∈ program.opcodes.toList, o.line = line.number →
          ∃ w, o.words[n]? = some w ∧ w.opcode = i.opcode ∧
            (program.words.length ≤ 65535 → w.immediate.toNat = location) := by
  constructor
  · intro hout
    rcases hr : Assembly.run constants (Line.ofTexts texts) with ⟨a, d | program⟩
    · exact ⟨d, rfl⟩
    · obtain ⟨one, two, hone, -, htwo, -⟩ := Assembly.run_ok hr
      obtain ⟨b, -, -, -, hin, -⟩ := Assembly.exists_target hone htwo hp hb hk ho hw
      exact absurd hin (hout b)
  · intro a program h
    obtain ⟨one, two, hone, -, htwo, -, rfl, rfl⟩ := Assembly.run_ok h
    obtain ⟨b, u, site, d, hin, ⟨before, hu⟩, hsite, hmem, hat, o, w, homem, hline, hword, hop,
      himm⟩ := Assembly.exists_target hone htwo hp hb hk ho hw
    have hem : Emitted (Line.ofTexts texts) two.opcodes.toList :=
      Assembly.secondPass_emitted (Assembly.firstPass_opcodes hone) htwo
    obtain ⟨hstart, hend⟩ := hsite.size_bounds
    obtain ⟨e, he⟩ := runLines_prefix_ok b.prefix_inside hone
    refine ⟨b, u, Source.size b.before, Source.size site, e, hin, by rw [← hu]; simp,
      ⟨site, d, hsite, hmem⟩, ?_, ?_, he, hstart, ?_, ⟨o, homem, hline⟩, ?_⟩
    · exact (Assembly.secondPass_labels htwo _ _).mpr hat
    · change (b.name, (Source.size b.before : Int)) ∈ two.processes.entries
      rw [Assembly.secondPass_processes htwo]
      change _ ∈ one.processes.finalize.entries
      rw [Registry.mem_entries_finalize, Assembly.firstPass_entries hone]
      exact ⟨b.before, b.opening, b.prefix_opening, b.opens, rfl⟩
    · rw [(Assembly.firstPass_place he).1]
      exact hend
    · intro o' ho' hline'
      obtain rfl : o = o' :=
        hem.eq_of_line (Line.numbered_ofTexts texts) homem ho' (hline.trans hline'.symm)
      refine ⟨w, hword, hop, fun hsmall => ?_⟩
      have htotal : two.program.words.length = Source.size (Line.ofTexts texts) := hem.length_words
      have hle := Source.size_mono b.prefix_inside
      rw [himm, UInt16.ofInt, UInt16.toNat_ofNat']
      omega

theorem label_in_block_sample :
    ∃ a program, Assembly.run {} (Line.ofTexts Source.sample) = (a, .ok program) ∧
      ∃ (b : Block (Line.ofTexts Source.sample)) (location : Nat),
        b.Holds ((Line.ofTexts Source.sample).take 7) ⟨8, "jlt n, k, top"⟩ ∧
        a.symbols.LabelAt (b.name ++ 46 :: ("top" : Text)) location ∧
        ∃ o ∈ program.opcodes.toList, o.line = 8 ∧
          ∃ w, o.words[0]? = some w ∧ w.opcode = 0x11 ∧
            (program.words.length ≤ 65535 → w.immediate.toNat = location) := by
  obtain ⟨a, program, h⟩ := Source.run_sample
  have hp : (Line.ofTexts Source.sample).take 7 ++ [⟨8, "jlt n, k, top"⟩] <+:
      Line.ofTexts Source.sample := by decide +kernel
  have hb : (⟨8, "jlt n, k, top"⟩ : Line).body =
      [⟨.pseudo, "jlt", 0⟩, ⟨.identifier, "n", 0⟩, ⟨.comma, ",", 0⟩, ⟨.identifier, "k", 0⟩,
        ⟨.comma, ",", 0⟩, ⟨.identifier, "top", 0⟩] := by decide +kernel
  have ho : PseudoOp.ofName? "jlt" = some (.branch .jlt) := by decide +kernel
  obtain ⟨b, u, _, location, _, hin, hu, -, hat, -, -, -, -, ⟨o, homem, hline⟩, hall⟩ :=
    (label_in_block hp hb rfl ho rfl).2 a program h
  cases hu
  exact ⟨a, program, h, b, location, hin, hat, o, homem, hline, hall o homem hline⟩

end BarrelAsm
