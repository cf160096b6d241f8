import BarrelAsm.Proofs.Names
import BarrelAsm.Proofs.Scoping
import BarrelAsm.Proofs.Scratch

/-! The names that an assembly declares and looks up. All of them are scoped names, so that the
table of symbols is an environment with two levels throughout. -/
namespace BarrelAsm

theorem ProcessName.isValid_of_processName {ts : List Token} {name : Text}
    (h : (Statement.processName ts).1 = .ok name) : isValid name = true := by
  obtain ⟨n, mid, hn, h⟩ := Stateful.bind_ok (Prod.ext h rfl)
  obtain ⟨⟨⟩, _, -, h⟩ := Stateful.bind_ok h
  obtain ⟨rfl, -⟩ := Reader.pure_ok h
  cases ts with
  | nil => cases hn
  | cons t ts =>
    dsimp only at hn
    split_ifs at hn with hv
    · cases hn
      exact hv.2
    · cases hn

/-- The scratch register of a scope, as a name in a scope of its own. -/
def ScopedName.scratch : Option Text → ScopedName
  | none => ⟨none, "___macro1__"⟩
  | some p => ⟨some ("___macro" ++ p), "1__"⟩

theorem ScopedName.key_scratch (process : Option Text) :
    (scratch process).key = Assembly.scratchName process := by
  cases process with
  | none => rfl
  | some p => rw [Assembly.scratchName_some, scratch, key_some]

theorem Text.isName_scratch {t : Text} (h : isName t = true) : isName ("___macro" ++ t) = true := by
  have hword := all_isWordByte_of_isName h
  change (isNameStart 95 && (("__macro" : Text) ++ t).all isWordByte) = true
  rw [List.all_append, hword, Bool.and_true]
  decide

theorem ProcessName.isValid_scratch {p : Text} (h : isValid p = true) :
    isValid ("___macro" ++ p) = true := by
  have hdot : ∀ b ∈ ("___macro" : Text), (b != 46) = true := List.all_eq_true.mp (by decide)
  have hsplit : split ("___macro" ++ p) = ("___macro" ++ (split p).1, (split p).2) := by
    unfold split Text.before Text.after?
    rw [List.takeWhile_append_of_pos hdot, List.dropWhile_append_of_pos hdot]
  unfold isValid at h ⊢
  rw [hsplit]
  rcases hp : split p with ⟨top, _ | part⟩ <;> rw [hp] at h
  · exact Text.isName_scratch h
  · obtain ⟨htop, hpart⟩ := (Bool.and_eq_true _ _).mp h
    exact (Bool.and_eq_true _ _).mpr ⟨Text.isName_scratch htop, hpart⟩

theorem ScopedName.proper_scratch {process : Option Text}
    (h : ∀ p, process = some p → ProcessName.isValid p = true) : (scratch process).Proper := by
  cases process with
  | none =>
    have hdot : (46 : UInt8) ∉ ("___macro1__" : Text) := by decide
    exact ⟨hdot, nofun⟩
  | some p =>
    have hdot : (46 : UInt8) ∉ ("1__" : Text) := by decide
    refine ⟨hdot, ?_⟩
    rintro _ ⟨⟩
    exact ProcessName.isValid_scratch (h p rfl)

namespace Assembly

variable {a b : Assembly} {line : Line} {lines : List Line} {constants : Constants}

theorem dot_notMem_of_read {α : Type} {body : Reader α} {ts : List Token} {name : Text} {x : α}
    (hts : ∀ t ∈ ts, t.Lawful) (h : (readDeclaration body ts).1 = .ok (name, x)) :
    (46 : UInt8) ∉ name := by
  obtain ⟨u, rest, rfl, hk, rfl, -⟩ := readDeclaration_ok h
  have hlaw := hts u (by simp)
  rw [Token.Lawful, hk] at hlaw
  exact Text.dot_notMem_of_all (Text.all_isWordByte_of_isName hlaw)

/-- The state is in a process that can be declared, and has only symbols with scoped names. -/
structure WellScoped (a : Assembly) : Prop where
  process : ∀ p, a.process = some p → ProcessName.isValid p = true
  keys : ∀ e ∈ a.symbols.entries, ∃ n : ScopedName, n.Proper ∧ n.key = e.1

namespace WellScoped

theorem of_eq (h : a.WellScoped) (hs : b.symbols = a.symbols) (hp : b.process = a.process) :
    b.WellScoped where
  process := by
    rw [hp]
    exact h.process
  keys := by
    rw [hs]
    exact h.keys

theorem insert (h : a.WellScoped) {n : ScopedName} {sym : Symbol} (hn : n.Proper)
    (hs : a.symbols.insert n.key sym = .ok b.symbols) (hp : b.process = a.process) :
    b.WellScoped where
  process := by
    rw [hp]
    exact h.process
  keys := by
    intro e he
    rw [SymbolTable.entries_insert hs] at he
    rcases List.mem_append.mp he with he | he
    · exact h.keys e he
    · rw [List.mem_singleton.mp he]
      exact ⟨n, hn, rfl⟩

theorem proper (h : a.WellScoped) {name : Text} (hn : (46 : UInt8) ∉ name) :
    (⟨a.process, name⟩ : ScopedName).Proper := ⟨hn, h.process⟩

theorem defineLabels (h : a.WellScoped) (ls : List Text) (hl : ∀ l ∈ ls, (46 : UInt8) ∉ l) :
    (defineLabels ls a).1.WellScoped := by
  induction ls generalizing a with
  | nil => exact h
  | cons l ls ih =>
    obtain ⟨hdot, hls⟩ := List.forall_mem_cons.mp hl
    rw [defineLabels_cons]
    rcases hd : a.defineLabel l with ⟨b, _ | f⟩
    · obtain ⟨symbols, hs, rfl⟩ := Outcome.update_ok (a.defineLabel_eq l ▸ hd)
      obtain ⟨-, hs⟩ := except_guard_ok hs
      have hstep : WellScoped { a with symbols } := h.insert (h.proper hdot) hs rfl
      exact ih hstep hls
    · rw [defineLabel_fault hd]
      exact h

theorem declared (h : a.WellScoped) {ts : List Token} (hts : ∀ t ∈ ts, t.Lawful)
    (hb : Declared a line ts b) : b.WellScoped := by
  cases hb with
  | nothing => exact h
  | register hk hr hs =>
    have hdot := dot_notMem_of_read (List.forall_mem_cons.mp hts).2 hr
    exact h.insert (h.proper hdot) (nameRegister_ok hs).2 rfl
  | const hk hp hr hs =>
    have hdot := dot_notMem_of_read (List.forall_mem_cons.mp hts).2 hr
    exact h.insert (n := ⟨none, _⟩) ⟨hdot, nofun⟩ hs rfl
  | data hk hr hs =>
    have hdot := dot_notMem_of_read (List.forall_mem_cons.mp hts).2 hr
    exact h.insert (h.proper hdot) hs rfl
  | opening hk hp hn hs =>
    refine ⟨?_, h.keys⟩
    rintro _ ⟨⟩
    exact ProcessName.isValid_of_processName hn
  | closing => exact ⟨nofun, h.keys⟩
  | instruction => exact h.of_eq rfl rfl
  | pseudo => exact h.of_eq rfl rfl

theorem firstPass (h : a.WellScoped) (line : Line) : (firstPass line a).1.WellScoped := by
  have hrecord : (a.visit line).WellScoped := h.of_eq rfl rfl
  rw [firstPass_eq]
  rcases hs : Statement.ofLine? line.text with _ | s
  · exact hrecord.of_eq rfl rfl
  · dsimp only
    have hlabels := hrecord.defineLabels s.labels (Statement.dot_notMem_labels hs)
    rcases hl : Assembly.defineLabels s.labels (a.visit line) with ⟨b, _ | f⟩
    · rw [hl] at hlabels
      dsimp only at hlabels ⊢
      rcases hd : b.declare line s.body with ⟨c, _ | f⟩
      · exact hlabels.declared (Statement.lawful_body hs) (declare_ok hd)
      · rw [declare_fault hd]
        exact hlabels
    · rw [hl] at hlabels
      exact hlabels

theorem scratchFor (h : a.WellScoped) (line : Line) (p : Pseudo) :
    (a.scratchFor line p).1.WellScoped := by
  rw [scratchFor_eq_ite]
  split_ifs
  · rw [scratch_eq]
    split
    · exact h
    · split
      · exact h
      · rename_i symbols hs
        have hins := (nameRegister_ok hs).2
        rw [← ScopedName.key_scratch] at hins
        exact h.insert (ScopedName.proper_scratch h.process) hins rfl
  · exact h

theorem expand (h : a.WellScoped) (line : Line) (op : PseudoOp) (ts : List Token) :
    (a.expand line op ts).1.WellScoped := by
  rw [expand_eq]
  split
  · exact h
  · rename_i p rest _
    have hs := h.scratchFor line p
    split
    · rename_i b f hb
      rw [hb] at hs
      exact hs
    · rename_i b r hb
      rw [hb] at hs
      rcases (Reader.finish rest).1 with f | _
      · exact hs
      · exact hs.of_eq rfl rfl

theorem update {α : Type} {found : Except Fault α} {change : Assembly → α → Assembly}
    (h : a.WellScoped) (hc : ∀ x, found = .ok x → (change a x).WellScoped) :
    (Outcome.update a found change).1.WellScoped := by
  cases found with
  | error f => exact h
  | ok x => exact hc x rfl

theorem generate (h : a.WellScoped) (line : Line) (ts : List Token) :
    (a.generate line ts).1.WellScoped := by
  cases ts with
  | nil =>
    rw [generate_nil]
    exact h.of_eq rfl rfl
  | cons t ts =>
    rw [generate_cons]
    split
    · exact h
    · exact h
    · exact h
    · rw [reopenProcess_eq]
      refine h.update fun name hn => ⟨?_, h.keys⟩
      rintro _ ⟨⟩
      exact ProcessName.isValid_of_processName (except_guard_ok hn).2
    · rw [recloseProcess_eq]
      refine h.update fun _ _ => ⟨?_, h.keys⟩
      rintro _ ⟨⟩
    · split
      · rw [encode_eq]
        exact h.update fun _ _ => h.of_eq rfl rfl
      · exact h
    · split
      · exact h.expand line _ ts
      · exact h
    · exact h

theorem secondPass (h : a.WellScoped) (line : Line) : (secondPass line a).1.WellScoped := by
  have hrecord : (a.record (.line 2 line)).WellScoped := h.of_eq rfl rfl
  rw [secondPass_eq]
  split
  · exact hrecord
  · exact hrecord.generate line _

theorem restart (h : a.WellScoped) : a.restart.WellScoped := ⟨nofun, h.keys⟩

end WellScoped

theorem wellScoped_initial (h : ∀ e ∈ constants.entries, (46 : UInt8) ∉ e.1) (n : Nat) :
    (initial constants n).WellScoped where
  process := nofun
  keys := by
    intro e he
    obtain ⟨c, hc, rfl⟩ := List.mem_map.mp he
    exact ⟨⟨none, c.1⟩, ⟨h c (List.mem_mergeSort.mp hc), nofun⟩, rfl⟩

theorem Visited.wellScoped (hc : ∀ e ∈ constants.entries, (46 : UInt8) ∉ e.1)
    (h : Visited constants lines a) : a.WellScoped := by
  refine h.preserves (wellScoped_initial hc lines.length) ?_ ?_ ?_ ?_ ?_ ?_
  · exact fun line _ ha => ha.firstPass line
  · intro line ls _ hl ha
    exact ha.defineLabels ls fun l hm => Line.dot_notMem_of_mem_labels (hl.mem hm)
  · exact fun line _ ha => ha.secondPass line
  · exact fun _ ha => ha.restart
  · exact fun _ _ ha => ha.of_eq rfl rfl
  · exact fun _ _ ha => ha.of_eq rfl rfl

/-- If the fault is a name that is in use, this is the key of a scoped name in the table. -/
def Taken (a : Assembly) (f : Fault) : Prop :=
  ∀ key, f = .duplicateSymbol key →
    ∃ n : ScopedName, n.Proper ∧ n.key = key ∧ (a.symbols.get? key).isSome

theorem taken_of_ne {f : Fault} (h : ∀ key, f ≠ .duplicateSymbol key) : a.Taken f :=
  fun key hf => absurd hf (h key)

theorem taken_of_tokens {f : Fault} (h : f.ofTokens = true) : a.Taken f := by
  refine taken_of_ne ?_
  rintro key rfl
  cases h

theorem taken_of_insert {n : ScopedName} {sym : Symbol} {f : Fault} (hn : n.Proper)
    (h : a.symbols.insert n.key sym = .error f) : a.Taken f := by
  obtain ⟨rfl, hsome⟩ := SymbolTable.insert_fault h
  rintro key ⟨⟩
  exact ⟨n, hn, rfl, hsome⟩

theorem taken_of_nameRegister {n : ScopedName} {value : Int} {f : Fault} (hn : n.Proper)
    (h : a.nameRegister n.key value = .error f) : a.Taken f := by
  unfold nameRegister at h
  split_ifs at h
  · cases h
    exact taken_of_tokens rfl
  · exact taken_of_insert hn h

theorem defineLabels_taken (h : a.WellScoped) {ls : List Text} (hl : ∀ l ∈ ls, (46 : UInt8) ∉ l)
    {f : Fault} (hf : defineLabels ls a = (b, some f)) : b.Taken f := by
  induction ls generalizing a with
  | nil => cases hf
  | cons l ls ih =>
    obtain ⟨hdot, hls⟩ := List.forall_mem_cons.mp hl
    have hone := h.defineLabels [l] (by simpa using hdot)
    rw [defineLabels_cons] at hf hone
    rcases hd : a.defineLabel l with ⟨c, _ | g⟩ <;> rw [hd] at hf hone
    · exact ih hone hls hf
    · cases hf
      obtain ⟨rfl, hg⟩ := Outcome.update_fault (a.defineLabel_eq l ▸ hd)
      rcases except_guard_fault hg with rfl | hs
      · exact taken_of_ne (by simp)
      · exact taken_of_insert (h.proper hdot) hs

theorem faults_processName (ts : List Token) : FaultsOfTokens (Statement.processName ts).1 := by
  unfold Statement.processName
  rw [Stateful.bind_apply]
  cases ts with
  | nil => exact .error rfl
  | cons t ts =>
    dsimp only
    split_ifs
    · exact (Reader.Alike.bind (@Reader.Alike.finish ⟨{}, none⟩ ⟨{}, none⟩)
        fun _ => .pure t.text).faults ts
    · exact .error rfl

theorem register_fault_ne {r : Registry} {name : Text} {location : Int} {f : Fault}
    (h : r.register name location = .error f) (key : Text) : f ≠ .duplicateSymbol key := by
  rw [(Registry.register_fault h).1]
  simp

theorem ofTokens_unexpected (t : Token) : (Statement.unexpected t).ofTokens = true := by
  unfold Statement.unexpected
  split_ifs <;> rfl

/-- A declaration fails because of its tokens, or behind a name that is plain. -/
theorem declaration_taken {α β : Type} {body : Reader α} {ts : List Token}
    {g : Text × α → Except Fault β} {f : Fault} (hts : ∀ t ∈ ts, t.Lawful)
    (hbody : Reader.Alike a.scope a.scope body body)
    (hf : ((readDeclaration body ts).1 >>= g) = .error f)
    (hg : ∀ name x, (46 : UInt8) ∉ name → g (name, x) = .error f → a.Taken f) : a.Taken f := by
  rcases except_bind_fault hf with hr | ⟨⟨name, x⟩, hr, hf⟩
  · exact taken_of_tokens (hbody.declaration.faults ts f hr)
  · exact hg name x (dot_notMem_of_read hts hr) hf

theorem declare_taken (h : a.WellScoped) {ts : List Token} (hts : ∀ t ∈ ts, t.Lawful) {f : Fault}
    (hf : a.declare line ts = (b, some f)) : b.Taken f := by
  cases ts with
  | nil => cases hf
  | cons t ts =>
    have hts := (List.forall_mem_cons.mp hts).2
    rw [declare_cons] at hf
    split at hf
    · obtain ⟨rfl, hf⟩ := Outcome.update_fault (declareRegister_eq .. ▸ hf)
      refine declaration_taken hts .optional hf fun name value hdot hf => ?_
      rcases except_bind_fault hf with hs | ⟨_, -, hf⟩
      · exact taken_of_nameRegister (h.proper hdot) hs
      · cases hf
    · obtain ⟨rfl, hf⟩ := Outcome.update_fault (declareConst_eq .. ▸ hf)
      rcases except_guard_fault hf with rfl | hf
      · exact taken_of_ne (by simp)
      · refine declaration_taken hts .immediate hf fun name value hdot hf => ?_
        rcases except_bind_fault hf with hs | ⟨_, -, hf⟩
        · exact taken_of_insert (n := ⟨none, name⟩) ⟨hdot, by simp⟩ hs
        · cases hf
    · obtain ⟨rfl, hf⟩ := Outcome.update_fault (declareData_eq .. ▸ hf)
      refine declaration_taken hts .dataItem hf fun name item hdot hf => ?_
      rcases except_bind_fault hf with hs | ⟨_, -, hf⟩
      · exact taken_of_insert (h.proper hdot) hs
      · cases hf
    · obtain ⟨rfl, hf⟩ := Outcome.update_fault (openProcess_eq .. ▸ hf)
      rcases except_guard_fault hf with rfl | hf
      · exact taken_of_ne (by simp)
      · rcases except_bind_fault hf with hn | ⟨name, -, hf⟩
        · exact taken_of_tokens (faults_processName ts f hn)
        · rcases except_bind_fault hf with hr | ⟨_, -, hf⟩
          · exact taken_of_ne (register_fault_ne hr)
          · cases hf
    · obtain ⟨rfl, hf⟩ := Outcome.update_fault (closeProcess_eq .. ▸ hf)
      rcases except_guard_fault hf with rfl | hf
      · exact taken_of_ne (by simp)
      · exact taken_of_tokens ((@Reader.Alike.finish b.scope b.scope).faults ts f hf)
    · cases hf
    · cases hf
    · cases hf
      exact taken_of_tokens (ofTokens_unexpected t)

theorem firstPass_taken (h : a.WellScoped) {f : Fault} (hf : firstPass line a = (b, some f)) :
    b.Taken f := by
  have hrecord : (a.visit line).WellScoped := h.of_eq rfl rfl
  rw [firstPass_eq] at hf
  rcases hs : Statement.ofLine? line.text with _ | s <;> rw [hs] at hf
  · cases hf
  · have hdots := Statement.dot_notMem_labels hs
    have hlabels := hrecord.defineLabels s.labels hdots
    dsimp only at hf
    rcases hl : defineLabels s.labels (a.visit line) with ⟨c, _ | g⟩ <;>
      rw [hl] at hf hlabels
    · exact declare_taken hlabels (Statement.lawful_body hs) hf
    · cases hf
      exact defineLabels_taken hrecord hdots hl

theorem scratchFor_taken (h : a.WellScoped) {p : Pseudo} {f : Fault}
    (hf : a.scratchFor line p = (b, .error f)) : b.Taken f := by
  rw [scratchFor_eq_ite] at hf
  split_ifs at hf
  · rw [scratch_eq] at hf
    split at hf
    · cases hf
    · split at hf
      · rename_i g hs
        cases hf
        rw [← ScopedName.key_scratch] at hs
        exact taken_of_nameRegister (ScopedName.proper_scratch h.process) hs
      · cases hf
  · cases hf

theorem expand_taken (h : a.WellScoped) {op : PseudoOp} {ts : List Token} {f : Fault}
    (hf : a.expand line op ts = (b, some f)) : b.Taken f := by
  rw [expand_eq] at hf
  split at hf
  · rename_i g rest hp
    cases hf
    exact taken_of_tokens ((@Reader.Alike.pseudo a.scope a.scope op).faults ts f (by rw [hp]))
  · rename_i p rest _
    split at hf
    · rename_i c g hs
      cases hf
      exact scratchFor_taken h hs
    · obtain ⟨-, hf⟩ := Outcome.update_fault hf
      exact taken_of_tokens ((@Reader.Alike.finish a.scope a.scope).faults rest f hf)

theorem generate_taken (h : a.WellScoped) {ts : List Token} {f : Fault}
    (hf : a.generate line ts = (b, some f)) : b.Taken f := by
  cases ts with
  | nil =>
    rw [generate_nil] at hf
    cases hf
  | cons t ts =>
    rw [generate_cons] at hf
    split at hf
    · cases hf
    · cases hf
    · cases hf
    · obtain ⟨-, hf⟩ := Outcome.update_fault (reopenProcess_eq .. ▸ hf)
      rcases except_guard_fault hf with rfl | hf
      · exact taken_of_ne (by simp)
      · exact taken_of_tokens (faults_processName ts f hf)
    · obtain ⟨-, hf⟩ := Outcome.update_fault (recloseProcess_eq .. ▸ hf)
      rcases except_guard_fault hf with rfl | hf
      · exact taken_of_ne (by simp)
      · exact taken_of_tokens ((@Reader.Alike.finish a.scope a.scope).faults ts f hf)
    · split at hf
      · rename_i m _
        obtain ⟨-, hf⟩ := Outcome.update_fault (encode_eq .. ▸ hf)
        exact taken_of_tokens ((@Reader.Alike.instructionAll a.scope a.scope m).faults ts f hf)
      · cases hf
        exact taken_of_tokens (ofTokens_unexpected t)
    · split at hf
      · exact expand_taken h hf
      · cases hf
        exact taken_of_tokens (ofTokens_unexpected t)
    · cases hf
      exact taken_of_tokens (ofTokens_unexpected t)

theorem secondPass_taken (h : a.WellScoped) {f : Fault} (hf : secondPass line a = (b, some f)) :
    b.Taken f := by
  have hrecord : (a.record (.line 2 line)).WellScoped := h.of_eq rfl rfl
  rw [secondPass_eq] at hf
  split at hf
  · cases hf
  · exact generate_taken hrecord hf

/-- What holds of a step that fails holds of a run that fails. -/
theorem runLines_fault_of {P : Assembly → Prop} {Q : Assembly → Fault → Prop}
    {step : Line → Assembly → Outcome} (hstep : ∀ line a, P a → P (step line a).1)
    (hfault : ∀ line a b f, P a → step line a = (b, some f) → Q b f) {l : Line} {f : Fault}
    (ha : P a) (h : runLines step lines a = (b, some (l, f))) : Q b f := by
  induction lines generalizing a with
  | nil => cases h
  | cons k ks ih =>
    have hk := hstep k a ha
    rw [runLines_cons] at h
    rcases hs : step k a with ⟨c, _ | g⟩ <;> rw [hs] at h hk
    · exact ih hk h
    · cases h
      exact hfault _ a b f ha hs

theorem run_taken (hc : ∀ e ∈ constants.entries, (46 : UInt8) ∉ e.1) {l : Line} {f : Fault}
    (h : run constants lines = (a, .error (.line l f))) : a.Taken f := by
  have hstart := wellScoped_initial hc lines.length
  have hfirst : ∀ line (a : Assembly), a.WellScoped → (firstPass line a).1.WellScoped :=
    fun line _ ha => ha.firstPass line
  have hsecond : ∀ line (a : Assembly), a.WellScoped → (secondPass line a).1.WellScoped :=
    fun line _ ha => ha.secondPass line
  rw [run_eq] at h
  rcases hone : runLines firstPass lines (initial constants lines.length) with ⟨one, _ | ⟨k, g⟩⟩ <;>
    rw [hone] at h <;> dsimp only at h
  · have hmid := runLines_preserves hfirst lines hstart
    rw [hone] at hmid
    split at h
    · cases h
    · rcases htwo : runLines secondPass lines one.restart with ⟨two, _ | ⟨k, g⟩⟩ <;>
        rw [htwo] at h <;> dsimp only at h
      · rw [finish_eq] at h
        split at h <;> cases h
      · cases h
        exact runLines_fault_of hsecond (fun _ _ _ _ ha hf => secondPass_taken ha hf)
          hmid.restart htwo
  · cases h
    exact runLines_fault_of hfirst (fun _ _ _ _ ha hf => firstPass_taken ha hf) hstart hone

/-- The symbols of a state are declarations of scoped names. -/
theorem WellScoped.exists_declarations (h : a.WellScoped) :
    ∃ es : List (ScopedName × Symbol), (∀ e ∈ es, e.1.Proper) ∧
      a.symbols.entries = es.map fun e => (e.1.key, e.2) := by
  obtain ⟨-, hkeys⟩ := h
  revert hkeys
  generalize a.symbols.entries = entries
  intro hkeys
  induction entries with
  | nil => exact ⟨[], nofun, rfl⟩
  | cons e entries ih =>
    obtain ⟨he, hrest⟩ := List.forall_mem_cons.mp hkeys
    obtain ⟨n, hn, hkey⟩ := he
    obtain ⟨es, hes, rfl⟩ := ih hrest
    refine ⟨(n, e.2) :: es, List.forall_mem_cons.mpr ⟨hn, hes⟩, ?_⟩
    rw [List.map_cons, hkey]

end Assembly

theorem Line.dot_notMem_names {l : Line} {t : Token} (h : t ∈ l.body) :
    ∀ n ∈ t.names, (46 : UInt8) ∉ n := by
  rcases hs : Statement.ofLine? l.text with _ | s
  · rw [Line.body_of_none hs] at h
    cases h
  · rw [Line.body_of_some hs] at h
    unfold Statement.ofLine? at hs
    dsimp only at hs
    split_ifs at hs
    cases hs
    exact Token.dot_notMem_names ((List.dropWhile_sublist _).subset h)

/-- The flat table of symbols is an environment with two levels. To every sequence of requests for
names without a dot it gives the answers of the environment, in which a name has the symbol that it
was first declared with, and in a process these do not depend on what other processes declare. An
assembly makes only such requests: all its symbols are declared under scoped names, also the one
that it fails on because its name is in use, and its lines are read through the names of their
tokens. -/
theorem symbols_scoped :
    (∀ rs : List Request, (∀ r ∈ rs, r.name.Plain) →
      (∀ n, Environment.after rs n = rs.findSome? (Request.declares? n)) ∧
      ∀ r : Request, r.name.Plain →
        ((SymbolTable.after rs).serve r).2 = ((Environment.after rs).serve r).2 ∧
        ∀ f, ((SymbolTable.after rs).serve r).2 = .error f →
          ((SymbolTable.after rs).serve r).1 = SymbolTable.after rs) ∧
    (∀ (p : Option Text) (rs rs' : List Request), (∀ r ∈ rs, r.name.Plain) →
      (∀ r ∈ rs', r.name.Plain) →
      rs.filter (Request.visibleIn p) = rs'.filter (Request.visibleIn p) →
      ∀ r : Request, r.name.Plain → r.name.process = p →
        ((SymbolTable.after rs).serve r).2 = ((SymbolTable.after rs').serve r).2) ∧
    (∀ (constants : Constants) (texts : List Text), (∀ e ∈ constants.entries, (46 : UInt8) ∉ e.1) →
      (∀ a, Assembly.Visited constants (Line.ofTexts texts) a →
        ∃ es : List (ScopedName × Symbol), (∀ e ∈ es, e.1.Proper) ∧
          a.symbols.entries = es.map (fun e => (e.1.key, e.2)) ∧
          ∀ line ∈ Line.ofTexts texts, ∀ t ∈ line.body, ∀ n ∈ t.names,
            (⟨a.process, n⟩ : ScopedName).Proper ∧
            (a.scope.lookup n).map some =
              ((Environment.after (es.map fun e => .insert e.1 e.2)).serve
                (.lookup ⟨a.process, n⟩)).2) ∧
      ∀ a l key, Assembly.run constants (Line.ofTexts texts) =
          (a, .error (.line l (.duplicateSymbol key))) →
        ∃ n : ScopedName, n.Proper ∧ n.key = key ∧ (a.symbols.get? key).isSome) ∧
    ∀ (s s' : Scope) (ts : List Token),
      (∀ t ∈ ts, ∀ n ∈ t.names, s.lookup n = s'.lookup n) →
      Assembly.readDeclaration (Expr.immediate s) ts =
          Assembly.readDeclaration (Expr.immediate s') ts ∧
        Assembly.readDeclaration (Expr.optional s) ts =
          Assembly.readDeclaration (Expr.optional s') ts ∧
        Assembly.readDeclaration (DataItem.read s) ts =
          Assembly.readDeclaration (DataItem.read s') ts ∧
        (∀ m, Instruction.readAll s m ts = Instruction.readAll s' m ts) ∧
        ∀ op, Pseudo.read s op ts = Pseudo.read s' op ts := by
  refine ⟨?_, ?_, ?_, ?_⟩
  · intro rs hrs
    refine ⟨Environment.after_eq rs, fun r hr => ?_⟩
    have hanswer := ((SymbolTable.represents_after hrs).serve hr).1
    exact ⟨hanswer, fun f => SymbolTable.serve_fault⟩
  · intro p rs rs' hrs hrs' hsame r hr hp
    exact SymbolTable.serve_of_visible hrs hrs' hsame hr hp
  · intro constants texts hc
    refine ⟨?_, fun a l key h => Assembly.run_taken hc h key rfl⟩
    intro a ha
    have hscoped := ha.wellScoped hc
    obtain ⟨es, hes, hentries⟩ := hscoped.exists_declarations
    have hrep := SymbolTable.represents_of_entries (fun e he => (hes e he).plain) hentries
    refine ⟨es, hes, hentries, ?_⟩
    intro line _ t ht n hn
    have hproper := hscoped.proper (Line.dot_notMem_names ht n hn)
    have hanswer := (hrep.serve (r := .lookup ⟨a.process, n⟩) hproper.plain).1
    exact ⟨hproper, hanswer⟩
  · intro s s' ts h
    have hconst := (@Reader.Alike.immediate s s').declaration.eq ts h
    have hregister := (@Reader.Alike.optional s s').declaration.eq ts h
    have hdata := (@Reader.Alike.dataItem s s').declaration.eq ts h
    exact ⟨hconst, hregister, hdata, fun m => (Reader.Alike.instructionAll m).eq ts h,
      fun op => (Reader.Alike.pseudo op).eq ts h⟩

/-- One name outside of all processes and in a part of the process `a`, another one in `b`. -/
def Request.sample : List Request :=
  [.insert ⟨none, "x"⟩ ⟨.const, 1, 0, 0⟩, .insert ⟨some "a.c", "x"⟩ ⟨.register, 0, 1, 2⟩,
    .insert ⟨some "b", "y"⟩ ⟨.label, 3, 1, 3⟩]

theorem symbols_scoped_sample :
    ((SymbolTable.after Request.sample).serve (.lookup ⟨some "a.c", "x"⟩)).2 =
      .ok (some ⟨.register, 0, 1, 2⟩) ∧
    ((SymbolTable.after Request.sample).serve (.lookup ⟨some "a", "x"⟩)).2 =
      .ok (some ⟨.const, 1, 0, 0⟩) ∧
    ((SymbolTable.after Request.sample).serve (.insert ⟨some "b", "y"⟩ ⟨.const, 4, 0, 0⟩)).2 =
      .error (.duplicateSymbol "b.y") ∧
    ((SymbolTable.after Request.sample).serve (.lookup ⟨some "a", "y"⟩)).2 =
      ((SymbolTable.after (Request.sample.take 2)).serve (.lookup ⟨some "a", "y"⟩)).2 ∧
    (∃ es : List (ScopedName × Symbol), (∀ e ∈ es, e.1.Proper) ∧
      (Assembly.run (.set {} "limit" 8) (Line.ofTexts Source.sample)).1.symbols.entries =
        es.map fun e => (e.1.key, e.2)) ∧
    (∃ n : ScopedName, n.Proper ∧ n.key = ("a.l" : Text)) ∧
    Instruction.readAll ⟨SymbolTable.after Request.sample, some "a"⟩ .jalr
        [⟨.identifier, "x", 0⟩] =
      Instruction.readAll ⟨SymbolTable.after (Request.sample.take 1), none⟩ .jalr
        [⟨.identifier, "x", 0⟩] := by
  obtain ⟨hserve, hvisible, hassembly, hreaders⟩ := symbols_scoped
  have hplain : ∀ r ∈ Request.sample, r.name.Plain := by decide
  have hanswer := fun r hr => ((hserve Request.sample hplain).2 r hr).1
  refine ⟨?_, ?_, ?_, ?_, ?_, ?_, ?_⟩
  · rw [hanswer _ (by decide)]
    rfl
  · rw [hanswer _ (by decide)]
    rfl
  · rw [hanswer _ (by decide)]
    rfl
  · exact hvisible (some "a") _ _ hplain (by decide) (by decide) _ (by decide) rfl
  · have hlimit := (hassembly (.set {} "limit" 8) Source.sample (by decide)).1 _ .last
    obtain ⟨es, hes, hentries, -⟩ := hlimit
    exact ⟨es, hes, hentries⟩
  · have hfail : (Assembly.run {} (Line.ofTexts ["process a", "l:", "l:"])).2 =
        .error (.line ⟨3, "l:"⟩ (.duplicateSymbol "a.l")) := by decide +kernel
    have htaken := (hassembly {} ["process a", "l:", "l:"] nofun).2 _ _ _ (Prod.ext rfl hfail)
    obtain ⟨n, hn, hkey, -⟩ := htaken
    exact ⟨n, hn, hkey⟩
  · exact (hreaders _ _ _ (by decide)).2.2.2.1 .jalr

end BarrelAsm
