import BarrelAsm.Proofs.Arith
import BarrelAsm.Proofs.Growth

/-! Register symbols and the table of initial values: each place of the table has one name, and
there are never more places than a byte can tell apart. -/
namespace BarrelAsm

namespace SymbolTable

variable {t t' : SymbolTable} {name : Text} {sym : Symbol}

/-- The table has a register of this name at this location. -/
def RegisterAt (t : SymbolTable) (name : Text) (i : Nat) : Prop :=
  ∃ sym, t.Has .register name sym ∧ sym.location = i

theorem registerAt_insert_other (h : t.insert name sym = .ok t') (hk : sym.kind ≠ .register)
    (m : Text) (i : Nat) : t'.RegisterAt m i ↔ t.RegisterAt m i := by
  unfold RegisterAt
  simp only [has_insert_other h hk]

theorem registerAt_insert {value : Int} {j : Nat}
    (h : t.insert name ⟨.register, value, 1, j⟩ = .ok t') (m : Text) (i : Nat) :
    t'.RegisterAt m i ↔ t.RegisterAt m i ∨ (m = name ∧ i = j) := by
  unfold RegisterAt
  constructor
  · rintro ⟨s, hs, hl⟩
    rcases (has_insert h).mp hs with hs | ⟨rfl, rfl⟩
    · exact .inl ⟨s, hs, hl⟩
    · exact .inr ⟨rfl, Int.ofNat.inj hl.symm⟩
  · rintro (⟨s, hs, hl⟩ | ⟨rfl, rfl⟩)
    · exact ⟨s, (has_insert h).mpr (.inl hs), hl⟩
    · exact ⟨_, (has_insert h).mpr (.inr ⟨rfl, rfl⟩), rfl⟩

end SymbolTable

namespace Assembly

variable {a b : Assembly} {constants : Constants} {lines : List Line}

/-- Register symbols and places of the register table correspond by location. The value of a place
is that of its symbol, cut to 16 bits. -/
structure RegistersExact (a : Assembly) : Prop where
  next_eq : a.registerNext = a.registers.size
  size_le : a.registers.size ≤ 256
  existsUnique : ∀ i < a.registers.size, ∃! name, a.symbols.RegisterAt name i
  start : ∀ name sym, a.symbols.Has .register name sym →
    ∃ (i : Nat) (r : UInt16), sym.location = i ∧ a.registers[i]? = some r ∧
      (r.toNat : Int) = sym.value % 2 ^ 16

namespace RegistersExact

theorem lt_size (h : RegistersExact a) {name : Text} {i : Nat}
    (hi : a.symbols.RegisterAt name i) : i < a.registers.size := by
  obtain ⟨sym, hs, hl⟩ := hi
  obtain ⟨j, r, hj, hr, -⟩ := h.start name sym hs
  have hij : j = i := by exact_mod_cast hj.symm.trans hl
  subst j
  exact (Array.getElem?_eq_some_iff.mp hr).1

theorem name_unique (h : RegistersExact a) {m n : Text} {i : Nat} (hm : a.symbols.RegisterAt m i)
    (hn : a.symbols.RegisterAt n i) : m = n :=
  (h.existsUnique i (h.lt_size hm)).unique hm hn

theorem eq_of_location (h : RegistersExact a) {m n : Text} {s t : Symbol}
    (hm : a.symbols.Has .register m s) (hn : a.symbols.Has .register n t)
    (he : s.location = t.location) : m = n := by
  obtain ⟨i, -, hi, -⟩ := h.start m s hm
  exact h.name_unique ⟨s, hm, hi⟩ ⟨t, hn, he.symm.trans hi⟩

theorem of_eq (h : RegistersExact a) (hs : b.symbols = a.symbols) (hr : b.registers = a.registers)
    (hn : b.registerNext = a.registerNext) : RegistersExact b where
  next_eq := by rw [hn, hr, h.next_eq]
  size_le := by rw [hr]; exact h.size_le
  existsUnique := by rw [hr, hs]; exact h.existsUnique
  start := by rw [hs, hr]; exact h.start

theorem insert_other (h : RegistersExact a) {name : Text} {sym : Symbol}
    (hk : sym.kind ≠ .register) (hs : a.symbols.insert name sym = .ok b.symbols)
    (hr : b.registers = a.registers) (hn : b.registerNext = a.registerNext) :
    RegistersExact b where
  next_eq := by rw [hn, hr, h.next_eq]
  size_le := by rw [hr]; exact h.size_le
  existsUnique := by
    intro i hi
    rw [hr] at hi
    obtain ⟨m, hm, huniq⟩ := h.existsUnique i hi
    refine ⟨m, (SymbolTable.registerAt_insert_other hs hk m i).mpr hm, ?_⟩
    intro m' hm'
    exact huniq m' ((SymbolTable.registerAt_insert_other hs hk m' i).mp hm')
  start := by
    intro m s hm
    rw [hr]
    exact h.start m s ((SymbolTable.has_insert_other hs hk).mp hm)

theorem insert_register (h : RegistersExact a) {name : Text} {value : Int}
    (hs : a.nameRegister name value = .ok b.symbols)
    (hr : b.registers = a.registers.push (UInt16.ofInt value))
    (hn : b.registerNext = a.registerNext + 1) : RegistersExact b := by
  obtain ⟨hlt, hins⟩ := nameRegister_ok hs
  have hnext := h.next_eq
  have hsize : b.registers.size = a.registers.size + 1 := by rw [hr, Array.size_push]
  have hat := SymbolTable.registerAt_insert hins
  refine ⟨by omega, ?_, ?_, ?_⟩
  · unfold registerLimit at hlt
    omega
  · intro i hi
    rcases Nat.lt_or_eq_of_le (Nat.le_of_lt_succ (hsize ▸ hi)) with hold | hnew
    · obtain ⟨m, hm, huniq⟩ := h.existsUnique i hold
      refine ⟨m, (hat m i).mpr (.inl hm), ?_⟩
      intro m' hm'
      rcases (hat m' i).mp hm' with hm' | ⟨-, he⟩
      · exact huniq m' hm'
      · omega
    · refine ⟨name, (hat name i).mpr (.inr ⟨rfl, by omega⟩), ?_⟩
      intro m' hm'
      rcases (hat m' i).mp hm' with hm' | ⟨he, -⟩
      · have := h.lt_size hm'
        omega
      · exact he
  · intro m s hm
    rcases (SymbolTable.has_insert hins).mp hm with hm | ⟨-, rfl⟩
    · obtain ⟨i, r, hi, hget, hval⟩ := h.start m s hm
      have hold := (Array.getElem?_eq_some_iff.mp hget).1
      refine ⟨i, r, hi, ?_, hval⟩
      rw [hr, Array.getElem?_push_lt hold, ← Array.getElem?_eq_getElem hold, hget]
    · refine ⟨a.registerNext, UInt16.ofInt value, rfl, ?_, Arith.toNat_uint16_ofInt value⟩
      rw [hr, hnext, Array.getElem?_push_size]

theorem adds (h : RegistersExact a) (hb : Adds a b) : RegistersExact b := by
  cases hb with
  | nothing hs hr hn => exact h.of_eq hs hr hn
  | symbol hk hs hr hn => exact h.insert_other hk hs hr hn
  | register hs hr hn => exact h.insert_register hs hr hn

theorem grows (h : RegistersExact a) (hb : Grows a b) : RegistersExact b := by
  induction hb with
  | refl => exact h
  | tail _ hstep ih => exact ih.adds hstep

end RegistersExact

theorem registersExact_initial (constants : Constants) (n : Nat) :
    RegistersExact (initial constants n) where
  next_eq := rfl
  size_le := Nat.zero_le _
  existsUnique := by
    intro i hi
    cases hi
  start := by
    rintro name sym ⟨hs, hk⟩
    rw [kind_of_constants hs] at hk
    cases hk

/-- The states of an assembly between statements, and the one that it ends in. -/
inductive Visited (constants : Constants) (lines : List Line) : Assembly → Prop where
  | first {pre : List Line} {a : Assembly} (h : AtFirst constants lines pre a) :
      Visited constants lines a
  | labels {pre : List Line} {line : Line} {ls : List Text} {a b : Assembly}
      (h : AtFirst constants lines pre a) (hp : pre ++ [line] <+: lines) (hl : ls <+: line.labels)
      (hb : defineLabels ls (a.visit line) = (b, none)) : Visited constants lines b
  | second {pre : List Line} {a : Assembly} (h : AtSecond constants lines pre a) :
      Visited constants lines a
  | last : Visited constants lines (run constants lines).1

theorem Visited.preserves {P : Assembly → Prop} (hstart : P (initial constants lines.length))
    (hfirst : ∀ line a, P a → P (firstPass line a).1)
    (hlabels : ∀ (line : Line) ls a, ls <+: line.labels → P a → P (defineLabels ls a).1)
    (hsecond : ∀ line a, P a → P (secondPass line a).1) (hrestart : ∀ a, P a → P a.restart)
    (hvisit : ∀ a line, P a → P (a.visit line)) (hrecord : ∀ a e, P a → P (a.record e))
    (h : Visited constants lines a) : P a := by
  have hone : ∀ {ls b}, runLines firstPass ls (initial constants lines.length) = (b, none) →
      P b := by
    intro ls b hb
    have hrun := runLines_preserves hfirst ls hstart
    rw [hb] at hrun
    exact hrun
  cases h with
  | first h => exact hone h.2
  | @labels pre line ls a _ h hp hl hb =>
    have hrun := hlabels line ls _ hl (hvisit a line (hone h.2))
    rw [hb] at hrun
    exact hrun
  | @second pre _ h =>
    obtain ⟨-, one, hfst, -, hsnd⟩ := h
    have hrun := runLines_preserves hsecond pre (hrestart one (hone hfst))
    rw [hsnd] at hrun
    exact hrun
  | last => exact run_preserves hstart hfirst hsecond hrestart hrecord

theorem Visited.grows (h : Visited constants lines a) :
    Grows (initial constants lines.length) a := by
  refine h.preserves .refl ?_ ?_ ?_ ?_ ?_ ?_
  · exact fun line a ha => ha.trans (firstPass_grows line a)
  · exact fun _ ls a _ ha => ha.trans (defineLabels_grows ls a)
  · exact fun line a ha => ha.trans (secondPass_grows line a)
  · exact fun a ha => ha.trans (grows_restart a)
  · exact fun a line ha => ha.trans (grows_visit a line)
  · exact fun a e ha => ha.trans (grows_record a e)

theorem Visited.registersExact (h : Visited constants lines a) : RegistersExact a :=
  (registersExact_initial constants lines.length).grows h.grows

/-- The cut of a location to 8 bits loses nothing. -/
theorem RegistersExact.toNat_location (h : RegistersExact a) {name : Text} {sym : Symbol}
    (hs : a.symbols.Has .register name sym) :
    ((UInt8.ofInt sym.location).toNat : Int) = sym.location := by
  obtain ⟨i, v, hi, hget, -⟩ := h.start name sym hs
  have hlt := (Array.getElem?_eq_some_iff.mp hget).1
  have hle := h.size_le
  rw [Arith.toNat_uint8_ofInt, hi]
  omega

theorem RegistersExact.registerNamed (h : RegistersExact a) {name : Text} {r : Register}
    (hr : a.scope.registerNamed name = .ok r) :
    ∃ sym, a.scope.lookup name = .ok sym ∧ sym.kind = .register ∧
      (r.toNat : Int) = sym.location := by
  obtain ⟨sym, hs, hr⟩ := except_bind_ok hr
  split_ifs at hr with hk
  cases hr
  obtain ⟨m, hm⟩ : ∃ m, a.symbols.get? m = some sym :=
    (SymbolTable.lookup_ok hs).elim (fun hm => ⟨_, hm⟩) fun hm => ⟨_, hm⟩
  exact ⟨sym, hs, hk, h.toNat_location ⟨hm, hk⟩⟩

/-- The statement of the line is the well-formed declaration of a register. -/
def DeclaresRegister (a : Assembly) (line : Line) : Prop :=
  ∃ b t ts name value, defineLabels line.labels (a.visit line) = (b, none) ∧
    line.body = t :: ts ∧ t.kind = .regDecl ∧
    (readDeclaration (Expr.optional b.scope) ts).1 = .ok (name, value)

/-- The expansion of the line works in a scratch register, and its scope has none yet. -/
def WantsScratch (a : Assembly) (line : Line) : Prop :=
  ∃ t ts op p rest, line.body = t :: ts ∧ t.kind = .pseudo ∧ PseudoOp.ofName? t.text = some op ∧
    Pseudo.read a.scope op ts = (.ok p, rest) ∧ p.usesScratch = true ∧
    a.symbols.get? (scratchName a.process) = none

theorem nameRegister_full (h : a.registerNext = 256) (name : Text) (value : Int) :
    a.nameRegister name value = .error (.outOfRange 257 256) := by
  unfold nameRegister registerLimit
  rw [if_pos (by omega), h]
  rfl

theorem firstPass_full {line : Line} (h : a.DeclaresRegister line) (hfull : a.registerNext = 256) :
    ∃ b, firstPass line a = (b, some (.outOfRange 257 256)) := by
  obtain ⟨b, t, ts, name, value, hlabels, hbody, hk, hread⟩ := h
  obtain ⟨s, hs, hl, hbody⟩ := Line.exists_statement hbody
  have hb : b.registerNext = 256 := by
    rw [defineLabels_eq hlabels]
    exact hfull
  have hdeclare : b.declareRegister line ts = (b, some (.outOfRange 257 256)) := by
    rw [declareRegister_eq, hread]
    change Outcome.update b (do return (value, ← b.nameRegister (b.qualify name) value)) _ = _
    rw [nameRegister_full hb]
    rfl
  refine ⟨b, ?_⟩
  rw [firstPass_eq, hs]
  dsimp only
  rw [hl, hlabels, hbody]
  dsimp only
  rw [declare_cons, hk]
  exact hdeclare

theorem scratch_full {line : Line} (hnone : a.symbols.get? (scratchName a.process) = none)
    (hfull : a.registerNext = 256) :
    a.scratch line = (a, .error (.outOfRange 257 256)) := by
  rw [scratch_eq, hnone]
  dsimp only
  rw [nameRegister_full hfull]

theorem secondPass_full {line : Line} (h : a.WantsScratch line) (hfull : a.registerNext = 256) :
    ∃ b, secondPass line a = (b, some (.outOfRange 257 256)) := by
  obtain ⟨t, ts, op, p, rest, hbody, hk, hop, hread, huses, hnone⟩ := h
  obtain ⟨s, hs, -, hbody⟩ := Line.exists_statement hbody
  let b := a.record (.line 2 line)
  have hread : Pseudo.read b.scope op ts = (.ok p, rest) := hread
  have hscratch : b.scratchFor line p = (b, .error (.outOfRange 257 256)) := by
    rw [scratchFor_eq_ite, if_pos huses]
    exact scratch_full hnone hfull
  have hexpand : b.expand line op ts = (b, some (.outOfRange 257 256)) := by
    rw [expand_eq, hread]
    dsimp only
    rw [hscratch]
  refine ⟨b, ?_⟩
  rw [secondPass_eq, hs]
  dsimp only
  rw [hbody, generate_cons, hk]
  dsimp only
  rw [hop]
  exact hexpand

theorem run_firstPass_fault {pre : List Line} {line : Line} {f : Fault}
    (h : AtFirst constants lines pre a) (hp : pre ++ [line] <+: lines)
    (hf : firstPass line a = (b, some f)) : (run constants lines).2 = .error (.line line f) := by
  rw [run_eq, runLines_fault hp h.2 hf]

theorem run_secondPass_fault {pre : List Line} {line : Line} {f : Fault}
    (h : AtSecond constants lines pre a) (hp : pre ++ [line] <+: lines)
    (hf : secondPass line a = (b, some f)) : (run constants lines).2 = .error (.line line f) := by
  obtain ⟨-, one, hone, hcount, htwo⟩ := h
  rw [run_eq, hone]
  dsimp only
  rw [hcount]
  dsimp only
  rw [runLines_fault hp htwo hf]

end Assembly

/-- Between statements, and when an assembly ends, each place of the register table has one register
symbol and each register symbol one place, so that a byte is enough for its location. There are at
most 256 registers, and one more, declared or scratch, makes the assembly fail. -/
theorem registers_exact (constants : Constants) (texts : List Text) :
    (∀ a, Assembly.Visited constants (Line.ofTexts texts) a → a.RegistersExact ∧
      ∀ name r, a.scope.registerNamed name = .ok r →
        ∃ sym, a.scope.lookup name = .ok sym ∧ sym.kind = .register ∧
          (r.toNat : Int) = sym.location) ∧
    (∀ a program, Assembly.run constants (Line.ofTexts texts) = (a, .ok program) →
      program.registers = a.registers) ∧
    (∀ pre line a, Assembly.AtFirst constants (Line.ofTexts texts) pre a →
      pre ++ [line] <+: Line.ofTexts texts → a.registers.size = 256 → a.DeclaresRegister line →
      (Assembly.run constants (Line.ofTexts texts)).2 =
        .error (.line line (.outOfRange 257 256))) ∧
    ∀ pre line a, Assembly.AtSecond constants (Line.ofTexts texts) pre a →
      pre ++ [line] <+: Line.ofTexts texts → a.registers.size = 256 → a.WantsScratch line →
      (Assembly.run constants (Line.ofTexts texts)).2 =
        .error (.line line (.outOfRange 257 256)) := by
  refine ⟨?_, ?_, ?_, ?_⟩
  · intro a ha
    have hexact := ha.registersExact
    exact ⟨hexact, fun name r => hexact.registerNamed⟩
  · intro a program h
    obtain ⟨one, two, -, -, -, -, rfl, rfl⟩ := Assembly.run_ok h
    rfl
  · intro pre line a ha hp hfull hline
    have hnext := (Assembly.Visited.first ha).registersExact.next_eq
    obtain ⟨b, hb⟩ := Assembly.firstPass_full hline (hnext.trans hfull)
    exact Assembly.run_firstPass_fault ha hp hb
  · intro pre line a ha hp hfull hline
    have hnext := (Assembly.Visited.second ha).registersExact.next_eq
    obtain ⟨b, hb⟩ := Assembly.secondPass_full hline (hnext.trans hfull)
    exact Assembly.run_secondPass_fault ha hp hb

theorem registers_exact_sample :
    ∃ a program, Assembly.run {} (Line.ofTexts Source.sample) = (a, .ok program) ∧
      program.registers.size = 4 ∧ ∃! name, a.symbols.RegisterAt name 3 := by
  obtain ⟨a, program, h⟩ := Source.run_sample
  have hsize : (Assembly.run {} (Line.ofTexts Source.sample)).1.registers.size = 4 := by
    decide +kernel
  have hvisited : Assembly.Visited {} (Line.ofTexts Source.sample)
      (Assembly.run {} (Line.ofTexts Source.sample)).1 := .last
  rw [h] at hsize hvisited
  change a.registers.size = 4 at hsize
  obtain ⟨hall, hregs, -⟩ := registers_exact {} Source.sample
  refine ⟨a, program, h, by rw [hregs a program h]; exact hsize, ?_⟩
  exact (hall a hvisited).1.existsUnique 3 (by omega)

end BarrelAsm
