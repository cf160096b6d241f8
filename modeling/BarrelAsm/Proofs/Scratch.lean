import BarrelAsm.Proofs.RegisterTable
import BarrelAsm.Proofs.Site
import BarrelAsm.Proofs.Target

/-! Scratch registers. A scope has one of its own, as long as nothing else in the source has the
name that it is kept under. -/
namespace BarrelAsm

/-- The operations whose expansion works in a scratch register. -/
def PseudoOp.usesScratch : PseudoOp → Bool
  | sub | branch _ | bitBranch _ => true
  | _ => false

theorem Pseudo.usesScratch_op (p : Pseudo) : p.op.usesScratch = p.usesScratch := by
  cases p <;> rfl

/-- The first two instructions of such an expansion write the scratch register. -/
theorem Pseudo.target_words {p : Pseudo} (h : p.usesScratch = true) (r : Register) :
    2 ≤ (p.words r).length ∧ ∀ w ∈ (p.words r).take 2, w.target = r := by
  rw [words_eq_map_expansion]
  cases p with
  | sub t a b => simp [expansion, Instruction.word, Operand.direct]
  | branch op a b l => cases hx : op.exchanges <;> simp [expansion, Instruction.word, hx]
  | bitBranch op s n l => simp [expansion, Instruction.word]
  | _ => cases h

/-- Whether the statement of a line works in a scratch register. -/
def Line.usesScratch (l : Line) : Bool := l.pseudo?.any PseudoOp.usesScratch

/-- Something that is not a scratch register has the name of the one of this scope. -/
def Source.ScratchTaken (constants : Constants) (lines : List Line) (process : Option Text) :
    Prop :=
  (constants.get? (Assembly.scratchName process)).isSome ∨
    match process with
    | none => ∃ s ∈ sites lines, s.process = none ∧
        ∃ kind, s.line.declares? = some (kind, ("___macro1__" : Text))
    | some p => ∃ s ∈ sites lines, s.process = some ("___macro" ++ p) ∧
        ("1__" : Text) ∈ s.line.labels

namespace Assembly

variable {a b one two : Assembly} {line : Line} {lines : List Line} {constants : Constants}
  {n : Nat}

theorem scratchName_some (p : Text) :
    scratchName (some p) = (("___macro" : Text) ++ p) ++ 46 :: ("1__" : Text) := by
  simp [scratchName, Scope.qualifier]

theorem scratchName_injective : Function.Injective scratchName := by
  intro p q h
  have hq : Scope.qualifier p = Scope.qualifier q :=
    List.append_cancel_left (List.append_cancel_right h)
  cases p <;> cases q <;> simp_all [Scope.qualifier]

theorem isName_of_declares (h : firstPass line a = (b, none)) {kind : SymbolKind} {name : Text}
    (hd : line.declares? = some (kind, name)) : Text.isName name = true := by
  unfold Line.declares? at hd
  split at hd
  · rename_i t u ts hbody
    obtain ⟨k, hk, hpair⟩ := Option.map_eq_some_iff.mp hd
    cases hpair
    rcases firstPass_ok h with ⟨hn, -⟩ | ⟨s, c, hs, -, hb⟩
    · rw [Line.body_of_none hn] at hbody
      cases hbody
    · rw [← Line.body_of_some hs, hbody] at hb
      obtain ⟨_, _, he, hid⟩ := hb.exists_identifier hk
      cases he
      have hlaw : u.Lawful := Line.lawful_of_mem_body (l := line) (by simp [hbody])
      rw [Token.Lawful, hid] at hlaw
      exact hlaw
  · cases hd

section Names

variable {s : Site} (h : runLines firstPass lines (initial constants n) = (a, none))
  (hs : s ∈ Source.sites lines)
include h hs

theorem process_of_mem_labels {l : Text} (hl : l ∈ s.line.labels) : ∃ p, s.process = some p := by
  obtain ⟨pre, hp, -, hproc⟩ := Source.mem_sites_iff.mp hs
  rw [hproc]
  exact process_isSome_of_labels h hp hl

theorem isName_of_site {kind : SymbolKind} {name : Text}
    (hd : s.line.declares? = some (kind, name)) : Text.isName name = true := by
  obtain ⟨pre, hp, -⟩ := Source.mem_sites_iff.mp hs
  obtain ⟨c, d, -, -, hstep, -⟩ := runLines_at_ok hp h
  exact isName_of_declares hstep hd

/-- A full name without a dot is declared outside of the processes. -/
theorem defines_global_iff {full : Text} (hdot : (46 : UInt8) ∉ full) :
    s.Defines full ↔ s.process = none ∧ ∃ kind, s.line.declares? = some (kind, full) := by
  constructor
  · rintro (⟨l, hl, rfl⟩ | ⟨kind, name, hd, rfl⟩)
    · obtain ⟨p, hp⟩ := process_of_mem_labels h hs hl
      simp [Site.qualify, hp, Scope.qualifier] at hdot
    · cases hp : s.process with
      | some p => simp [Site.qualify, hp, Scope.qualifier] at hdot
      | none =>
        refine ⟨rfl, kind, ?_⟩
        rw [hd, Site.qualify, hp]
        rfl
  · rintro ⟨hp, kind, hd⟩
    refine .inr ⟨kind, full, hd, ?_⟩
    rw [Site.qualify, hp]
    rfl

/-- What is no name but stands behind a dot in a full name is a label. -/
theorem defines_label_iff {p l : Text} (hdot : (46 : UInt8) ∉ l) (hname : Text.isName l = false) :
    s.Defines (p ++ 46 :: l) ↔ s.process = some p ∧ l ∈ s.line.labels := by
  constructor
  · rintro (⟨m, hm, he⟩ | ⟨kind, m, hd, he⟩)
    · obtain ⟨q, hq⟩ := process_of_mem_labels h hs hm
      rw [Site.qualify, hq, Scope.qualifier, List.append_assoc] at he
      obtain ⟨rfl, rfl⟩ := Text.append_sep_inj_right hdot (Line.dot_notMem_of_mem_labels hm) he
      exact ⟨hq, hm⟩
    · have hm := isName_of_site h hs hd
      have hmdot := Text.dot_notMem_of_all (Text.all_isWordByte_of_isName hm)
      cases hq : s.process with
      | none =>
        rw [Site.qualify, hq] at he
        have he : p ++ 46 :: l = m := he
        simp [← he] at hmdot
      | some q =>
        rw [Site.qualify, hq, Scope.qualifier, List.append_assoc] at he
        obtain ⟨-, rfl⟩ := Text.append_sep_inj_right hdot hmdot he
        rw [hm] at hname
        cases hname
  · rintro ⟨hp, hl⟩
    refine .inl ⟨l, hl, ?_⟩
    rw [Site.qualify, hp, Scope.qualifier, List.append_assoc]
    rfl

end Names

theorem scratchTaken_iff (h : runLines firstPass lines (initial constants n) = (a, none))
    (process : Option Text) :
    (a.symbols.get? (scratchName process)).isSome ↔
      Source.ScratchTaken constants lines process := by
  rw [firstPass_defines h]
  cases process with
  | none =>
    refine or_congr Iff.rfl (exists_congr fun s => and_congr_right fun hs => ?_)
    exact defines_global_iff h hs (by decide)
  | some p =>
    refine or_congr Iff.rfl (exists_congr fun s => and_congr_right fun hs => ?_)
    rw [scratchName_some]
    exact defines_label_iff h hs (by decide) (by decide)

/-- What the second pass adds to the symbols is registers. -/
theorem secondPass_register (h : runLines secondPass lines a.restart = (b, none)) {name : Text}
    {sym : Symbol} (hs : b.symbols.get? name = some sym) :
    a.symbols.get? name = some sym ∨ sym.kind = .register := by
  refine runLines_induction (P := fun _ x => ∀ name sym, x.symbols.get? name = some sym →
    a.symbols.get? name = some sym ∨ sym.kind = .register) h (fun _ _ => .inl) ?_ name sym hs
  intro pre line c d _ _ hc hd m s hm
  rcases secondPass_ok hd with ⟨-, rfl⟩ | ⟨st, -, hg⟩
  · exact hc m s hm
  · rcases hg.symbols with he | ⟨new, hk, hins⟩
    · rw [he] at hm
      exact hc m s hm
    · rcases (SymbolTable.get?_insert_iff hins).mp hm with hm | ⟨-, rfl⟩
      · exact hc m s hm
      · exact .inr hk

/-- A scratch register whose name is free is one that the second pass has added. -/
theorem scratch_of_free (hone : runLines firstPass lines (initial constants n) = (one, none))
    (htwo : runLines secondPass lines one.restart = (two, none)) {process : Option Text}
    {sym : Symbol} (hfree : ¬Source.ScratchTaken constants lines process)
    (hs : two.symbols.get? (scratchName process) = some sym) :
    one.symbols.get? (scratchName process) = none ∧
      two.symbols.Has .register (scratchName process) sym := by
  rw [← scratchTaken_iff hone, Option.not_isSome_iff_eq_none] at hfree
  refine ⟨hfree, hs, ?_⟩
  rcases secondPass_register htwo hs with hold | hk
  · rw [hfree] at hold
    cases hold
  · exact hk

/-- The symbol of the scratch register is in the table after it is obtained. -/
theorem scratchFor_symbol {p : Pseudo} {r : Register} (hp : p.usesScratch = true)
    (h : a.scratchFor line p = (b, .ok r)) :
    ∃ sym, b.symbols.get? (scratchName a.process) = some sym ∧ r = UInt8.ofInt sym.location := by
  rcases scratchFor_ok h with ⟨hno, -⟩ | ⟨-, hs⟩
  · rw [hp] at hno
    cases hno
  · rcases scratch_ok hs with ⟨sym, hg, rfl, hr⟩ | ⟨symbols, -, hn, rfl, hr⟩
    · exact ⟨sym, hg, hr⟩
    · refine ⟨_, (SymbolTable.get?_insert_iff (nameRegister_ok hn).2).mpr (.inr ⟨rfl, rfl⟩), ?_⟩
      rw [hr, Arith.uint8_ofInt_natCast]

theorem Generated.scratch (h : Generated a line line.body b) (hu : line.usesScratch = true) :
    ∃ sym o, b.symbols.get? (scratchName a.process) = some sym ∧ b.opcodes = a.opcodes.push o ∧
      o.line = line.number ∧ 2 ≤ o.words.length ∧
      ∀ w ∈ o.words.take 2, w.target = UInt8.ofInt sym.location := by
  unfold Line.usesScratch Line.pseudo? at hu
  generalize line.body = ts at h hu
  cases h with
  | @pseudo t ts op p c r hk ho hp hs =>
    have hp : p.usesScratch = true := by
      rw [← Pseudo.usesScratch_op, Pseudo.op_of_read hp]
      simpa [hk, ho] using hu
    obtain ⟨hlen, hwords⟩ := Pseudo.target_words hp r
    obtain ⟨-, -, hops⟩ := scratchFor_place hs
    obtain ⟨sym, hget, rfl⟩ := scratchFor_symbol hp hs
    refine ⟨sym, _, hget, by rw [← hops]; rfl, rfl, hlen, hwords⟩
  | lone => cases hu
  | declaration hk => rcases hk with hk | hk | hk <;> simp [hk] at hu
  | opening hk | closing hk | instruction hk => simp [hk] at hu

/-- A line that works in a scratch register writes the one of its scope. -/
theorem exists_scratch (h : runLines secondPass lines a.restart = (b, none)) {s : Site}
    (hs : s ∈ Source.sites lines) (hu : s.line.usesScratch = true) :
    ∃ sym o, b.symbols.get? (scratchName s.process) = some sym ∧ o ∈ b.opcodes.toList ∧
      o.line = s.line.number ∧ 2 ≤ o.words.length ∧
      ∀ w ∈ o.words.take 2, w.target = UInt8.ofInt sym.location := by
  obtain ⟨pre, hp, -, hproc⟩ := Source.mem_sites_iff.mp hs
  obtain ⟨c, d, post, hc, hd, hlater⟩ := runLines_at_ok hp h
  obtain ⟨-, hcp⟩ := secondPass_place hc
  rcases secondPass_ok hd with ⟨hn, -⟩ | ⟨st, hst, hg⟩
  · rw [Line.usesScratch, Line.pseudo?, Line.body_of_none hn] at hu
    cases hu
  · rw [← Line.body_of_some hst] at hg
    obtain ⟨sym, o, hget, hops, hrest⟩ := hg.scratch hu
    have hgrows := runLines_grows_ok secondPass_grows hlater
    refine ⟨sym, o, ?_, ?_, hrest⟩
    · rw [hproc, ← hcp]
      exact hgrows.get? hget
    · refine (secondPass_opcodes_grow hlater).subset ?_
      rw [hops, Array.toList_push]
      simp

end Assembly

/-- The scratch register that the expansions of a scope write is where the symbol of its name is. If
nothing in the source has that name it is a register that no other name has: none that the source
declares, and not the one of another scope. -/
theorem scratch_separate {constants : Constants} {texts : List Text} {a : Assembly}
    {program : Program} (h : Assembly.run constants (Line.ofTexts texts) = (a, .ok program)) :
    ∀ s ∈ Source.sites (Line.ofTexts texts), s.line.usesScratch = true →
      ∃ sym, a.symbols.get? (Assembly.scratchName s.process) = some sym ∧
        (∃ o ∈ program.opcodes.toList, o.line = s.line.number) ∧
        (∀ o ∈ program.opcodes.toList, o.line = s.line.number → 2 ≤ o.words.length ∧
          ∀ w ∈ o.words.take 2, w.target = UInt8.ofInt sym.location) ∧
        (¬Source.ScratchTaken constants (Line.ofTexts texts) s.process →
          sym.kind = .register ∧ ((UInt8.ofInt sym.location).toNat : Int) = sym.location ∧
          (∀ d ∈ Source.sites (Line.ofTexts texts), ∀ name,
            d.line.declares? = some (.register, name) →
            ∃ reg, a.symbols.Has .register (d.qualify name) reg ∧ reg.location ≠ sym.location) ∧
          ∀ process other, process ≠ s.process →
            ¬Source.ScratchTaken constants (Line.ofTexts texts) process →
            a.symbols.get? (Assembly.scratchName process) = some other →
            other.location ≠ sym.location) := by
  have hexact : a.RegistersExact := by
    have hlast : Assembly.Visited constants (Line.ofTexts texts)
        (Assembly.run constants (Line.ofTexts texts)).1 := .last
    rw [h] at hlast
    exact hlast.registersExact
  obtain ⟨one, two, hone, -, htwo, -, rfl, rfl⟩ := Assembly.run_ok h
  intro s hs hu
  obtain ⟨sym, o, hsym, ho, hline, hwords⟩ := Assembly.exists_scratch htwo hs hu
  refine ⟨sym, hsym, ⟨o, ho, hline⟩, ?_, ?_⟩
  · intro o' ho' hline'
    have hem := Assembly.secondPass_emitted (Assembly.firstPass_opcodes hone) htwo
    obtain rfl : o = o' :=
      hem.eq_of_line (Line.numbered_ofTexts texts) ho ho' (hline.trans hline'.symm)
    exact hwords
  · intro hfree
    obtain ⟨hnew, hreg⟩ := Assembly.scratch_of_free hone htwo hfree hsym
    refine ⟨hreg.2, hexact.toNat_location hreg, ?_, ?_⟩
    · intro d hd name hdecl
      obtain ⟨reg, hget, hk⟩ := Assembly.get?_of_declares hone hd hdecl
      have hgrows := Assembly.runLines_grows_ok Assembly.secondPass_grows htwo
      refine ⟨reg, ⟨hgrows.get? hget, hk⟩, ?_⟩
      intro he
      rw [hexact.eq_of_location ⟨hgrows.get? hget, hk⟩ hreg he, hnew] at hget
      cases hget
    · intro process other hne hfree' hother he
      obtain ⟨-, hother⟩ := Assembly.scratch_of_free hone htwo hfree' hother
      exact hne (Assembly.scratchName_injective (hexact.eq_of_location hother hreg he))

theorem scratch_separate_sample :
    ∃ a program, Assembly.run {} (Line.ofTexts Source.sample) = (a, .ok program) ∧
      ∃ sym other reg, a.symbols.Has .register "___macromain.1__" sym ∧
        a.symbols.get? "___macroworker.a.1__" = some other ∧ a.symbols.Has .register "n" reg ∧
        reg.location ≠ sym.location ∧ other.location ≠ sym.location := by
  obtain ⟨a, program, h⟩ := Source.run_sample
  have hothers : ∀ s ∈ Source.sites (Line.ofTexts Source.sample),
      s.process ≠ some "___macromain" ∧ s.process ≠ some "___macroworker.a" := by decide +kernel
  have hmain : ¬Source.ScratchTaken {} (Line.ofTexts Source.sample) (some "main") := by
    rintro (hc | ⟨s, hs, hp, -⟩)
    · cases hc
    · exact (hothers s hs).1 hp
  have hworker : ¬Source.ScratchTaken {} (Line.ofTexts Source.sample) (some "worker.a") := by
    rintro (hc | ⟨s, hs, hp, -⟩)
    · cases hc
    · exact (hothers s hs).2 hp
  have hjump : (⟨⟨8, "jlt n, k, top"⟩, 3, some "main"⟩ : Site) ∈
      Source.sites (Line.ofTexts Source.sample) := by decide +kernel
  have hsub : (⟨⟨11, "sub n, n, k ; scratch"⟩, 5, some "worker.a"⟩ : Site) ∈
      Source.sites (Line.ofTexts Source.sample) := by decide +kernel
  have hreg : (⟨⟨2, ".reg n"⟩, 0, none⟩ : Site) ∈ Source.sites (Line.ofTexts Source.sample) := by
    decide +kernel
  obtain ⟨sym, hsym, -, -, hfree⟩ := scratch_separate h _ hjump (by decide +kernel)
  obtain ⟨other, hother, -⟩ := scratch_separate h _ hsub (by decide +kernel)
  obtain ⟨hk, -, hregs, hscopes⟩ := hfree hmain
  obtain ⟨reg, hn, hne⟩ := hregs _ hreg "n" (by decide +kernel)
  exact ⟨a, program, h, sym, other, reg, ⟨hsym, hk⟩, hother, hn, hne,
    hscopes _ other (by decide) hworker hother⟩

/-- A source with a label that has the name of the scratch register of another process. -/
def Source.scratchClash : List Text :=
  [".reg zero 0", ".reg one 1", "process ___macrop", "1__:", "endprocess", "process p",
    "here: jeq zero, one, here", "endprocess", "process p3", "endprocess", "process p4",
    "endprocess", "process p5", "endprocess", "process p6", "endprocess", "process p7",
    "endprocess"]

theorem scratch_overwrites_register :
    ∃ a program, Assembly.run {} (Line.ofTexts Source.scratchClash) = (a, .ok program) ∧
      a.symbols.Has .register "zero" ⟨.register, 0, 1, 0⟩ ∧
      a.symbols.Has .label (Assembly.scratchName (some "p")) ⟨.label, 0, 1, 0⟩ ∧
      ∃ o ∈ program.opcodes.toList, o.text = "here: jeq zero, one, here" ∧
        ∀ w ∈ o.words.take 2, w.target = 0 := by
  obtain ⟨a, program, h⟩ : ∃ a program,
      Assembly.run {} (Line.ofTexts Source.scratchClash) = (a, .ok program) :=
    Assembly.run_of_isOk (by decide +kernel)
  have hsyms : (Assembly.run {} (Line.ofTexts Source.scratchClash)).1.symbols.get? "zero" =
        some ⟨.register, 0, 1, 0⟩ ∧
      (Assembly.run {} (Line.ofTexts Source.scratchClash)).1.symbols.get? "___macrop.1__" =
        some ⟨.label, 0, 1, 0⟩ := by decide +kernel
  have hops : (Assembly.run {} (Line.ofTexts Source.scratchClash)).2.toOption.map
      (fun p => p.opcodes.toList) = some [⟨7, 0, [⟨0x11000000⟩, ⟨0x99000001⟩],
        "here: jeq zero, one, here"⟩] := by decide +kernel
  rw [h] at hsyms hops
  have hops : program.opcodes.toList = _ := Option.some.inj hops
  refine ⟨a, program, h, ⟨hsyms.1, rfl⟩, ⟨hsyms.2, rfl⟩, ?_⟩
  rw [hops]
  exact ⟨_, List.mem_singleton_self _, rfl, by decide⟩

end BarrelAsm
