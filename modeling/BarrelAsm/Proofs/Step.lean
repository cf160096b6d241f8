import BarrelAsm.Proofs.Handler
import Mathlib.Data.List.Induction

/-! What a line does in each pass when it does not fail, and runs of such lines. -/
namespace BarrelAsm

theorem except_bind_ok {α β : Type} {x : Except Fault α} {f : α → Except Fault β} {b : β}
    (h : (x >>= f) = .ok b) : ∃ a, x = .ok a ∧ f a = .ok b := by
  cases x with
  | error e => cases h
  | ok a => exact ⟨a, rfl, h⟩

theorem except_guard_ok {α : Type} {c : Prop} [Decidable c] {e : Fault} {x : Except Fault α} {a : α}
    (h : (if c then .error e else x) = .ok a) : ¬c ∧ x = .ok a := by
  split_ifs at h with hc
  exact ⟨hc, h⟩

theorem Expr.size_nonneg {s : Scope} {text : Text} {n : Int} (h : Expr.size s text = .ok n) :
    0 ≤ n := by
  obtain ⟨v, -, hv⟩ := except_bind_ok h
  obtain ⟨hneg, hv⟩ := except_guard_ok hv
  cases hv
  omega

namespace Assembly

/-- What the part of a statement behind its labels does in the first pass. -/
inductive Declared (a : Assembly) (line : Line) : List Token → Assembly → Prop where
  | nothing : Declared a line [] a
  | register {t : Token} {ts : List Token} {name : Text} {value : Int} {symbols : SymbolTable}
      (hk : t.kind = .regDecl)
      (hr : (readDeclaration (Expr.optional a.scope) ts).1 = .ok (name, value))
      (hs : a.nameRegister (a.qualify name) value = .ok symbols) :
      Declared a line (t :: ts)
        ((a.addRegister symbols value).list line a.registerNext (Text.hex16 value))
  | const {t : Token} {ts : List Token} {name : Text} {value : Int} {symbols : SymbolTable}
      (hk : t.kind = .constDecl) (hp : a.process = none)
      (hr : (readDeclaration (Expr.immediate a.scope) ts).1 = .ok (name, value))
      (hs : a.symbols.insert name ⟨.const, value, 0, 0⟩ = .ok symbols) :
      Declared a line (t :: ts) ({ a with symbols }.list line 0 (Text.hex16 value))
  | data {t : Token} {ts : List Token} {name : Text} {item : DataItem} {symbols : SymbolTable}
      (hk : t.kind = .dataDecl)
      (hr : (readDeclaration (DataItem.read a.scope) ts).1 = .ok (name, item))
      (hs : a.symbols.insert (a.qualify name)
        ⟨.data, item.firstValue, item.size, a.dataNext⟩ = .ok symbols) :
      Declared a line (t :: ts)
        ((a.addData symbols item.bytes).list line a.dataNext (Text.hex16 item.firstValue))
  | opening {t : Token} {ts : List Token} {name : Text} {processes : Registry}
      (hk : t.kind = .process) (hp : a.process = none)
      (hn : (Statement.processName ts).1 = .ok name)
      (hs : a.processes.register name a.pc = .ok processes) :
      Declared a line (t :: ts) { a with processes, process := some name }
  | closing {t : Token} {ts : List Token} {name : Text}
      (hk : t.kind = .endProcess) (hp : a.process = some name)
      (hf : (Reader.finish ts).1 = .ok ()) :
      Declared a line (t :: ts) { a with process := none }
  | instruction {t : Token} {ts : List Token} (hk : t.kind = .instruction) :
      Declared a line (t :: ts) { a with pc := a.pc + 1 }
  | pseudo {t : Token} {ts : List Token} (hk : t.kind = .pseudo) :
      Declared a line (t :: ts) { a with pc := a.pc + pseudoSize t.text }

/-- What the part of a statement behind its labels does in the second pass. -/
inductive Generated (a : Assembly) (line : Line) : List Token → Assembly → Prop where
  | lone : Generated a line [] (a.list line a.pc [])
  | declaration {t : Token} {ts : List Token}
      (hk : t.kind = .regDecl ∨ t.kind = .constDecl ∨ t.kind = .dataDecl) :
      Generated a line (t :: ts) a
  | opening {t : Token} {ts : List Token} {name : Text}
      (hk : t.kind = .process) (hp : a.process = none)
      (hn : (Statement.processName ts).1 = .ok name) :
      Generated a line (t :: ts) ({ a with process := some name }.list line a.pc [])
  | closing {t : Token} {ts : List Token} {name : Text}
      (hk : t.kind = .endProcess) (hp : a.process = some name)
      (hf : (Reader.finish ts).1 = .ok ()) :
      Generated a line (t :: ts) ({ a with process := none }.list line (-1) [])
  | instruction {t : Token} {ts : List Token} {m : Mnemonic} {i : Instruction}
      (hk : t.kind = .instruction) (hm : Mnemonic.ofName? t.text = some m)
      (hi : Instruction.read a.scope m ts = (.ok i, [])) :
      Generated a line (t :: ts) (a.emit line i.word)
  | pseudo {t : Token} {ts : List Token} {op : PseudoOp} {p : Pseudo} {b : Assembly} {r : Register}
      (hk : t.kind = .pseudo) (ho : PseudoOp.ofName? t.text = some op)
      (hp : Pseudo.read a.scope op ts = (.ok p, [])) (hs : a.scratchFor line p = (b, .ok r)) :
      Generated a line (t :: ts) (b.emitExpansion line (p.words r))

variable {a b : Assembly} {line : Line} {ts : List Token}

theorem declareRegister_ok {t : Token} (hk : t.kind = .regDecl)
    (h : a.declareRegister line ts = (b, none)) : Declared a line (t :: ts) b := by
  rw [declareRegister_eq] at h
  obtain ⟨⟨value, symbols⟩, hf, rfl⟩ := Outcome.update_ok h
  obtain ⟨⟨name, v⟩, hr, hf⟩ := except_bind_ok hf
  obtain ⟨st, hs, hf⟩ := except_bind_ok hf
  cases hf
  exact .register hk hr hs

theorem declareConst_ok {t : Token} (hk : t.kind = .constDecl)
    (h : a.declareConst line ts = (b, none)) : Declared a line (t :: ts) b := by
  rw [declareConst_eq] at h
  obtain ⟨⟨value, symbols⟩, hf, rfl⟩ := Outcome.update_ok h
  obtain ⟨hp, hf⟩ := except_guard_ok hf
  obtain ⟨⟨name, v⟩, hr, hf⟩ := except_bind_ok hf
  obtain ⟨st, hs, hf⟩ := except_bind_ok hf
  cases hf
  exact .const hk (Option.not_isSome_iff_eq_none.mp hp) hr hs

theorem declareData_ok {t : Token} (hk : t.kind = .dataDecl)
    (h : a.declareData line ts = (b, none)) : Declared a line (t :: ts) b := by
  rw [declareData_eq] at h
  obtain ⟨⟨item, symbols⟩, hf, rfl⟩ := Outcome.update_ok h
  obtain ⟨⟨name, i⟩, hr, hf⟩ := except_bind_ok hf
  obtain ⟨st, hs, hf⟩ := except_bind_ok hf
  cases hf
  exact .data hk hr hs

theorem openProcess_ok {t : Token} (hk : t.kind = .process)
    (h : a.openProcess ts = (b, none)) : Declared a line (t :: ts) b := by
  rw [openProcess_eq] at h
  obtain ⟨⟨name, processes⟩, hf, rfl⟩ := Outcome.update_ok h
  obtain ⟨hp, hf⟩ := except_guard_ok hf
  obtain ⟨n, hn, hf⟩ := except_bind_ok hf
  obtain ⟨r, hs, hf⟩ := except_bind_ok hf
  cases hf
  exact .opening hk (Option.not_isSome_iff_eq_none.mp hp) hn hs

theorem closeProcess_ok {t : Token} (hk : t.kind = .endProcess)
    (h : a.closeProcess ts = (b, none)) : Declared a line (t :: ts) b := by
  rw [closeProcess_eq] at h
  obtain ⟨⟨⟩, hf, rfl⟩ := Outcome.update_ok h
  obtain ⟨hp, hf⟩ := except_guard_ok hf
  obtain ⟨p, hp⟩ := Option.ne_none_iff_exists'.mp (mt Option.isNone_iff_eq_none.mpr hp)
  exact .closing hk hp hf

theorem declare_ok (h : a.declare line ts = (b, none)) : Declared a line ts b := by
  cases ts with
  | nil => cases h; exact .nothing
  | cons t ts =>
    rw [declare_cons] at h
    split at h
    · exact declareRegister_ok (by assumption) h
    · exact declareConst_ok (by assumption) h
    · exact declareData_ok (by assumption) h
    · exact openProcess_ok (by assumption) h
    · exact closeProcess_ok (by assumption) h
    · cases h; exact .instruction (by assumption)
    · cases h; exact .pseudo (by assumption)
    · cases h

/-- The scratch register is the one of its name, or the next register under that name. -/
theorem scratch_ok {r : Register} (h : a.scratch line = (b, .ok r)) :
    (∃ sym, a.symbols.get? (scratchName a.process) = some sym ∧ b = a ∧
        r = UInt8.ofInt sym.location) ∨
      ∃ symbols, a.symbols.get? (scratchName a.process) = none ∧
        a.nameRegister (scratchName a.process) 0 = .ok symbols ∧
        b = (a.addRegister symbols 0).record
          (.scratch line.number (scratchName a.process) a.registerNext) ∧
        r = UInt8.ofNat a.registerNext := by
  rw [scratch_eq] at h
  split at h
  · rename_i sym hg
    cases h
    exact .inl ⟨sym, hg, rfl, rfl⟩
  · rename_i hg
    split at h
    · cases h
    · rename_i symbols hs
      cases h
      exact .inr ⟨symbols, hg, hs, rfl, rfl⟩

theorem scratchFor_ok {p : Pseudo} {r : Register} (h : a.scratchFor line p = (b, .ok r)) :
    (p.usesScratch = false ∧ b = a) ∨ (p.usesScratch = true ∧ a.scratch line = (b, .ok r)) := by
  rw [scratchFor_eq_ite] at h
  split_ifs at h with hp
  · exact .inr ⟨hp, h⟩
  · cases h
    exact .inl ⟨by simpa using hp, rfl⟩

/-- Only the tables of symbols and registers change for a scratch register. -/
theorem scratchFor_eq {p : Pseudo} {r : Register} (h : a.scratchFor line p = (b, .ok r)) :
    b = { a with
      symbols := b.symbols
      registerNext := b.registerNext
      registers := b.registers
      events := b.events } := by
  rcases scratchFor_ok h with ⟨-, rfl⟩ | ⟨-, h⟩
  · rfl
  · rcases scratch_ok h with ⟨_, -, rfl, -⟩ | ⟨symbols, -, -, rfl, -⟩
    · rfl
    · rfl

/-- An instruction is read from all tokens, and its word is emitted. -/
theorem exists_read_of_encode {m : Mnemonic} (h : a.encode line m ts = (b, none)) :
    ∃ i, Instruction.read a.scope m ts = (.ok i, []) ∧ b = a.emit line i.word := by
  rw [encode_eq] at h
  obtain ⟨i, hi, rfl⟩ := Outcome.update_ok h
  obtain ⟨j, mid, hr, hf⟩ := Stateful.bind_ok (Prod.ext hi rfl)
  obtain ⟨⟨⟩, _, he, hp⟩ := Stateful.bind_ok hf
  obtain ⟨rfl, -⟩ := Reader.pure_ok hp
  obtain ⟨rfl, -⟩ := Reader.finish_ok he
  exact ⟨i, hr, rfl⟩

theorem encode_ok {t : Token} {m : Mnemonic} (hk : t.kind = .instruction)
    (hm : Mnemonic.ofName? t.text = some m) (h : a.encode line m ts = (b, none)) :
    Generated a line (t :: ts) b := by
  obtain ⟨i, hi, rfl⟩ := exists_read_of_encode h
  exact .instruction hk hm hi

theorem expand_ok {t : Token} {op : PseudoOp} (hk : t.kind = .pseudo)
    (ho : PseudoOp.ofName? t.text = some op) (h : a.expand line op ts = (b, none)) :
    Generated a line (t :: ts) b := by
  rw [expand_eq] at h
  split at h
  · cases h
  · rename_i p rest hp
    split at h
    · cases h
    · rename_i c r hs
      obtain ⟨⟨⟩, hf, rfl⟩ := Outcome.update_ok h
      obtain ⟨rfl, -⟩ := Reader.finish_ok (Prod.ext hf rfl)
      exact .pseudo hk ho hp hs

theorem reopenProcess_ok {t : Token} (hk : t.kind = .process)
    (h : a.reopenProcess line ts = (b, none)) : Generated a line (t :: ts) b := by
  rw [reopenProcess_eq] at h
  obtain ⟨name, hf, rfl⟩ := Outcome.update_ok h
  obtain ⟨hp, hf⟩ := except_guard_ok hf
  exact .opening hk (Option.not_isSome_iff_eq_none.mp hp) hf

theorem recloseProcess_ok {t : Token} (hk : t.kind = .endProcess)
    (h : a.recloseProcess line ts = (b, none)) : Generated a line (t :: ts) b := by
  rw [recloseProcess_eq] at h
  obtain ⟨⟨⟩, hf, rfl⟩ := Outcome.update_ok h
  obtain ⟨hp, hf⟩ := except_guard_ok hf
  obtain ⟨p, hp⟩ := Option.ne_none_iff_exists'.mp (mt Option.isNone_iff_eq_none.mpr hp)
  exact .closing hk hp hf

theorem generate_ok (h : a.generate line ts = (b, none)) : Generated a line ts b := by
  cases ts with
  | nil =>
    rw [generate_nil] at h
    cases h
    exact .lone
  | cons t ts =>
    rw [generate_cons] at h
    split at h
    · cases h; exact .declaration (.inl (by assumption))
    · cases h; exact .declaration (.inr (.inl (by assumption)))
    · cases h; exact .declaration (.inr (.inr (by assumption)))
    · exact reopenProcess_ok (by assumption) h
    · exact recloseProcess_ok (by assumption) h
    · split at h
      · exact encode_ok (by assumption) (by assumption) h
      · cases h
    · split at h
      · exact expand_ok (by assumption) (by assumption) h
      · cases h
    · cases h

/-- A line is blank, or its labels are defined and then its statement is carried out. -/
theorem firstPass_ok (h : firstPass line a = (b, none)) :
    (Statement.ofLine? line.text = none ∧ b = (a.visit line).list line (-1) []) ∨
      ∃ s c, Statement.ofLine? line.text = some s ∧
        defineLabels s.labels (a.visit line) = (c, none) ∧ Declared c line s.body b := by
  rw [firstPass_eq] at h
  split at h
  · cases h
    exact .inl ⟨by assumption, rfl⟩
  · rename_i s hs
    split at h
    · exact .inr ⟨s, _, hs, by assumption, declare_ok h⟩
    · cases h

theorem secondPass_ok (h : secondPass line a = (b, none)) :
    (Statement.ofLine? line.text = none ∧ b = a.record (.line 2 line)) ∨
      ∃ s, Statement.ofLine? line.text = some s ∧
        Generated (a.record (.line 2 line)) line s.body b := by
  rw [secondPass_eq] at h
  split at h
  · cases h
    exact .inl ⟨by assumption, rfl⟩
  · rename_i s hs
    exact .inr ⟨s, hs, generate_ok h⟩

/-- What is kept when a label is added to the symbols holds when all labels are defined. -/
theorem defineLabels_induction {P : Assembly → Prop} {ls : List Text}
    (h : defineLabels ls a = (b, none)) (h0 : P a)
    (hs : ∀ c name sym symbols, P c → sym.kind = .label →
      c.symbols.insert name sym = .ok symbols → P { c with symbols }) : P b := by
  induction ls generalizing a with
  | nil => cases h; exact h0
  | cons l ls ih =>
    rw [defineLabels_cons] at h
    split at h
    · rename_i c hc
      rw [defineLabel_eq] at hc
      obtain ⟨symbols, hins, rfl⟩ := Outcome.update_ok hc
      obtain ⟨-, hins⟩ := except_guard_ok hins
      exact ih h (hs a _ _ symbols h0 rfl hins)
    · cases h

/-- Labels go to the symbol table and change nothing else. -/
theorem defineLabels_eq {ls : List Text} (h : defineLabels ls a = (b, none)) :
    b = { a with symbols := b.symbols } := by
  refine defineLabels_induction (P := fun x => x = { a with symbols := x.symbols }) h rfl ?_
  intro c name sym symbols hc _ _
  rw [hc]

/-- What one label adds to a property of the symbols, all labels add. -/
theorem defineLabels_iff {R : SymbolTable → Prop} {E : Text → Prop} {ls : List Text}
    (h : defineLabels ls a = (b, none))
    (hs : ∀ t t' l, SymbolTable.insert t (a.qualify l) ⟨.label, a.pc, 1, a.pc⟩ = .ok t' →
      (R t' ↔ R t ∨ E l)) : R b.symbols ↔ R a.symbols ∨ ∃ l ∈ ls, E l := by
  induction ls generalizing a with
  | nil => cases h; simp
  | cons l ls ih =>
    rw [defineLabels_cons] at h
    split at h
    · rename_i c hc
      rw [defineLabel_eq] at hc
      obtain ⟨symbols, hins, rfl⟩ := Outcome.update_ok hc
      obtain ⟨-, hins⟩ := except_guard_ok hins
      rw [ih h hs]
      change R symbols ∨ (∃ m ∈ ls, E m) ↔ _
      rw [hs _ _ l hins, or_assoc]
      simp
    · cases h

end Assembly

variable {step : Line → Assembly → Outcome} {a b : Assembly} {line : Line} {lines : List Line}

theorem runLines_cons_ok :
    runLines step (line :: lines) a = (b, none) ↔
      ∃ c, step line a = (c, none) ∧ runLines step lines c = (b, none) := by
  rw [runLines_cons]
  rcases step line a with ⟨c, _ | f⟩ <;> simp

theorem runLines_append_ok {xs ys : List Line} :
    runLines step (xs ++ ys) a = (b, none) ↔
      ∃ c, runLines step xs a = (c, none) ∧ runLines step ys c = (b, none) := by
  induction xs generalizing a with
  | nil => simp [runLines_nil]
  | cons x xs ih =>
    simp only [List.cons_append, runLines_cons_ok, ih]
    constructor
    · rintro ⟨c, hc, d, hd, hb⟩
      exact ⟨d, ⟨c, hc, hd⟩, hb⟩
    · rintro ⟨d, ⟨c, hc, hd⟩, hb⟩
      exact ⟨c, hc, d, hd, hb⟩

theorem runLines_prefix_ok {pre : List Line} (hp : pre <+: lines)
    (h : runLines step lines a = (b, none)) : ∃ c, runLines step pre a = (c, none) := by
  obtain ⟨post, rfl⟩ := hp
  obtain ⟨c, hc, -⟩ := runLines_append_ok.mp h
  exact ⟨c, hc⟩

/-- A run comes to each of its lines and goes on behind it. -/
theorem runLines_at_ok {pre : List Line} (hp : pre ++ [line] <+: lines)
    (h : runLines step lines a = (b, none)) :
    ∃ c d post, runLines step pre a = (c, none) ∧ step line c = (d, none) ∧
      runLines step post d = (b, none) := by
  obtain ⟨post, rfl⟩ := hp
  rw [List.append_assoc, List.singleton_append] at h
  obtain ⟨c, hc, hb⟩ := runLines_append_ok.mp h
  obtain ⟨d, hd, hb⟩ := runLines_cons_ok.mp hb
  exact ⟨c, d, post, hc, hd, hb⟩

/-- What holds before the first line and is kept by every line holds at the end of a run; a line is
taken together with the lines before it. -/
theorem runLines_induction {P : List Line → Assembly → Prop}
    (h : runLines step lines a = (b, none)) (h0 : P [] a)
    (hs : ∀ pre line c d, pre ++ [line] <+: lines → runLines step pre a = (c, none) → P pre c →
      step line c = (d, none) → P (pre ++ [line]) d) : P lines b := by
  induction lines using List.reverseRecOn generalizing b with
  | nil => cases h; exact h0
  | append_singleton lines line ih =>
    obtain ⟨c, hc, hd⟩ := runLines_append_ok.mp h
    obtain ⟨d, hd, hb⟩ := runLines_cons_ok.mp hd
    cases hb
    refine hs lines line c _ (List.prefix_refl _) hc ?_ hd
    exact ih hc fun pre l e f hp => hs pre l e f (hp.trans (List.prefix_append _ _))

theorem Assembly.finish_ok {program : Program} (h : a.finish = (b, .ok program)) :
    a.processes.checkCapacity = .ok () ∧ program = a.program ∧
      b = a.record (.finished a.processes.count a.registers.size a.data.size a.pc) := by
  rw [finish_eq] at h
  split at h
  · cases h
  · rename_i hc
    cases h
    exact ⟨hc, rfl, rfl⟩

/-- A program comes from a full first pass that finds enough processes, and a full second pass. -/
theorem Assembly.run_ok {constants : Constants} {program : Program}
    (h : Assembly.run constants lines = (b, .ok program)) :
    ∃ one two, runLines firstPass lines (initial constants lines.length) = (one, none) ∧
      checkProcessCount one.processes = .ok () ∧
      runLines secondPass lines one.restart = (two, none) ∧
      two.processes.checkCapacity = .ok () ∧ program = two.program ∧
      b = two.record (.finished two.processes.count two.registers.size two.data.size two.pc) := by
  rw [run_eq] at h
  split at h
  · cases h
  · rename_i one hone
    split at h
    · cases h
    · rename_i hcount
      split at h
      · cases h
      · rename_i two htwo
        exact ⟨one, two, hone, hcount, htwo, finish_ok h⟩

theorem Assembly.run_of_isOk {constants : Constants}
    (h : (Assembly.run constants lines).2.isOk = true) :
    ∃ a program, Assembly.run constants lines = (a, .ok program) := by
  rcases hr : Assembly.run constants lines with ⟨a, d | program⟩
  · rw [hr] at h
    cases h
  · exact ⟨a, program, rfl⟩

theorem Assembler.result_of_lines {as : Assembler} {source : Text} {texts : List Text}
    (h : Text.lines? source = some texts) :
    (as.assemble source).2.result = (Assembly.run as.constants (Line.ofTexts texts)).2 := by
  rw [as.assemble_of_lines h]

end BarrelAsm
