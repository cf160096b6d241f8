import BarrelAsm.Proofs.Allocation
import BarrelAsm.Proofs.Expansion
import BarrelAsm.Proofs.ScopedSymbols

/-! Assembling lines again with the symbols that an assembly ends with. The second pass adds scratch
registers while it runs, but what the names of a line have stood for they stand for at the end. -/
namespace BarrelAsm

namespace Scope

variable {s s' : Scope} {ts us : List Token} {t : Token}

/-- What the tokens have stood for in the first scope, they stand for in the second. -/
def Carries (s s' : Scope) (ts : List Token) : Prop :=
  ∀ t ∈ ts,
    (t.kind = .identifier → ∀ sym, s.lookup t.text = .ok sym → s'.lookup t.text = .ok sym) ∧
    (t.kind = .indirection → ∀ r, s.registerNamed t.text = .ok r → s'.registerNamed t.text = .ok r)

namespace Carries

theorem subset (h : s.Carries s' ts) (hu : us ⊆ ts) : s.Carries s' us := fun t ht => h t (hu ht)

theorem lookup_eq (h : s.Carries s' ts) (ht : t ∈ ts) (hk : t.kind = .identifier) {sym : Symbol}
    (hs : s.lookup t.text = .ok sym) : s.lookup t.text = s'.lookup t.text := by
  rw [hs, (h t ht).1 hk sym hs]

theorem registerNamed (h : s.Carries s' ts) (ht : t ∈ ts)
    (hk : t.kind = .identifier ∨ t.kind = .indirection) {r : Register}
    (hr : s.registerNamed t.text = .ok r) : s'.registerNamed t.text = .ok r := by
  rcases hk with hk | hk
  · obtain ⟨sym, hs, -⟩ := except_bind_ok hr
    rw [← registerNamed_congr (h.lookup_eq ht hk hs)]
    exact hr
  · exact (h t ht).2 hk r hr

theorem labelNamed (h : s.Carries s' ts) (ht : t ∈ ts) (hk : t.kind = .identifier) {l : Int}
    (hl : s.labelNamed t.text = .ok l) : s'.labelNamed t.text = .ok l := by
  obtain ⟨sym, hs, -⟩ := except_bind_ok hl
  rw [← labelNamed_congr (h.lookup_eq ht hk hs)]
  exact hl

theorem valueOf (h : s.Carries s' ts) (ht : t ∈ ts) {v : Int} (hv : s.valueOf t = .ok v) :
    s'.valueOf t = .ok v := by
  rw [← valueOf_congr]
  · exact hv
  · intro hk
    obtain ⟨u, hu, hw⟩ := except_bind_ok hv
    obtain ⟨rfl, -⟩ := Token.require_ok hu
    rw [if_neg (by simp [hk])] at hw
    obtain ⟨sym, hs, -⟩ := except_bind_ok hw
    exact h.lookup_eq ht hk hs

theorem continueFrom (h : s.Carries s' ts) {acc v : Int} {rest : List Token}
    (hc : Expr.continueFrom s acc ts = (.ok v, rest)) :
    Expr.continueFrom s' acc ts = (.ok v, rest) := by
  fun_induction Expr.continueFrom s acc ts with
  | case1 => exact hc
  | case2 acc t ts ht =>
    unfold Expr.continueFrom
    rw [if_pos ht]
    exact hc
  | case3 => cases hc
  | case4 => cases hc
  | case5 => cases hc
  | case6 acc t ht op u us hop w hw ih =>
    obtain ⟨x, hx, happly⟩ := except_bind_ok hw
    have hx' : s'.valueOf u = .ok x := h.valueOf (by simp) hx
    have hw' : (s'.valueOf u >>= Expr.apply op.text acc) = .ok w := by
      rw [hx']
      exact happly
    have hrest := ih (h.subset (by simp)) hc
    simp [Expr.continueFrom, ht, hop, hw', hrest]

end Carries
end Scope

namespace Reader

variable {α β : Type} {s s' : Scope}

/-- What the first reader makes of tokens, the second makes of them if they stand for the same. -/
structure Carried (s s' : Scope) (x x' : Reader α) : Prop where
  advances : x.Advances
  ok : ∀ ts a rest, s.Carries s' ts → x ts = (.ok a, rest) → x' ts = (.ok a, rest)

namespace Carried

theorem refl {x : Reader α} (h : x.Advances) : Carried s s' x x := ⟨h, fun _ _ _ _ => id⟩

theorem lift {x x' : Except Fault α} (h : ∀ a, x = .ok a → x' = .ok a) :
    Carried s s' (liftM x : Reader α) (liftM x') where
  advances := .lift x
  ok := by
    intro ts a rest _ hlift
    obtain ⟨hx, rfl⟩ := lift_ok hlift
    rw [h a hx]
    rfl

theorem bind {x x' : Reader α} {f f' : α → Reader β} (hx : Carried s s' x x')
    (hf : ∀ a, Carried s s' (f a) (f' a)) : Carried s s' (x >>= f) (x' >>= f') where
  advances := .bind hx.advances fun a => (hf a).advances
  ok := by
    intro ts b rest h hb
    obtain ⟨a, mid, ha, hfa⟩ := Stateful.bind_ok hb
    have hmid := h.subset (hx.advances.suffix ha).subset
    rw [Stateful.bind_apply, hx.ok ts a mid h ha]
    exact (hf a).ok mid b rest hmid hfa

/-- A token, and what its name stands for. -/
theorem named {kinds : List TokenKind} {f f' : Token → Reader β} (ha : ∀ t, (f t).Advances)
    (hf : ∀ t, t.kind ∈ kinds → s.Carries s' [t] → Carried s s' (f t) (f' t)) :
    Carried s s' (expect kinds >>= f) (expect kinds >>= f') where
  advances := .bind (.expect kinds) ha
  ok := by
    intro ts b rest h hb
    obtain ⟨t, mid, ht, hft⟩ := Stateful.bind_ok hb
    obtain ⟨rfl, hk⟩ := expect_ok ht
    have hmid : s.Carries s' mid := h.subset (List.subset_cons_self t mid)
    rw [Stateful.bind_apply, ht]
    exact (hf t hk (h.subset (by simp))).ok mid b rest hmid hft

theorem register : Carried s s' (register s) (register s') :=
  .named (fun _ => .lift _) fun _ hk ht => .lift fun _ =>
    ht.registerNamed (by simp) (.inl (by simpa using hk))

theorem operand : Carried s s' (operand s) (operand s') :=
  .named (fun _ => .bind (.lift _) fun _ => .pure _) fun _ hk ht =>
    .bind (.lift fun _ => ht.registerNamed (by simp) (by simpa using hk)) fun _ => .refl (.pure _)

theorem indirection : Carried s s' (indirection s) (indirection s') :=
  .named (fun _ => .lift _) fun _ hk ht => .lift fun _ =>
    ht.registerNamed (by simp) (.inr (by simpa using hk))

theorem label : Carried s s' (label s) (label s') :=
  .named (fun _ => .lift _) fun _ hk ht => .lift fun _ =>
    ht.labelNamed (by simp) (by simpa using hk)

theorem evaluate : Carried s s' (Expr.evaluate s) (Expr.evaluate s') where
  advances := Expr.advances_evaluate s
  ok := by
    intro ts v rest h hv
    cases ts with
    | nil => cases hv
    | cons t ts =>
      unfold Expr.evaluate at hv ⊢
      dsimp only at hv ⊢
      rcases hw : s.valueOf t with f | w
      · rw [hw] at hv
        cases hv
      · rw [hw] at hv
        rw [h.valueOf (by simp) hw]
        exact (h.subset (by simp)).continueFrom hv

theorem immediate : Carried s s' (Expr.immediate s) (Expr.immediate s') :=
  .bind (.refl (.ahead _)) fun _ => .evaluate

theorem bit : Carried s s' (bit s) (bit s') := by
  refine .bind .immediate fun v => ?_
  split_ifs
  · exact .bind (.refl (.lift _)) fun _ => .refl (.pure _)
  · exact .refl (.pure _)

theorem congruence : Congruence s s' fun _ => Carried s s' where
  pure a := .refl (.pure a)
  bind := .bind
  comma := .refl .comma
  more := .refl (@Alike.more s s').advances
  finish := .refl (@Alike.finish s s').advances
  register := .register
  operand := .operand
  indirection := .indirection
  label := .label
  immediate := .immediate
  bit := .bit

end Carried
end Reader

namespace SymbolTable

variable {t : SymbolTable} {scope name : Text} {sym : Symbol}

theorem lookup_of_scoped (h : t.get? (scope ++ name) = some sym) :
    t.lookup scope name = .ok sym := by
  simp [lookup, h]

theorem lookup_of_global (hnone : t.get? (scope ++ name) = none) (h : t.get? name = some sym) :
    t.lookup scope name = .ok sym := by
  simp [lookup, hnone, h]

end SymbolTable

namespace Assembly

variable {a b c d one two x : Assembly} {line : Line} {lines pre : List Line} {ts : List Token}
  {constants : Constants} {n : Nat}

/-- What is in the table of the second pass only is the name of a scratch register. -/
theorem ScratchAdded.exists_scope {scopes : List (Option Text)} (h : ScratchAdded one scopes a)
    {name : Text} {sym : Symbol} (hs : a.symbols.get? name = some sym)
    (hnone : one.symbols.get? name = none) : ∃ p, name = scratchName p := by
  rw [SymbolTable.get?, h.symbols, List.lookup_append] at hs
  rw [SymbolTable.get?] at hnone
  rw [hnone, Option.none_or] at hs
  obtain ⟨xs, ys, he, -⟩ := List.lookup_eq_some_iff.mp hs
  have hmem : (name, sym) ∈ Source.scratchEntries one.registerNext scopes := by
    rw [he]
    simp
  obtain ⟨e, -, hpair⟩ := List.mem_map.mp hmem
  exact ⟨e.1, (Prod.mk.inj hpair).1.symm⟩

theorem scratchName_ne (p : Option Text) : scratchName p ≠ ("1__" : Text) := by
  intro h
  have hhead : (scratchName p).head? = some 95 := rfl
  rw [h] at hhead
  exact absurd hhead (by decide)

/-- Outside of processes the last part of the name of a scratch register is a constant at most. -/
theorem kind_of_scratch_part (h : runLines firstPass lines (initial constants n) = (one, none))
    {sym : Symbol} (hs : one.symbols.get? ("1__" : Text) = some sym) : sym.kind = .const := by
  have hsome := (firstPass_defines h ("1__" : Text)).mp (by rw [hs]; rfl)
  rcases hsome with hconst | ⟨s, hs, hdef⟩
  · rw [← isSome_get?_constants, Option.isSome_iff_exists] at hconst
    obtain ⟨new, hnew⟩ := hconst
    have hkeep : one.symbols.get? ("1__" : Text) = some new :=
      (runLines_grows_ok firstPass_grows h).get? hnew
    rw [hs] at hkeep
    cases hkeep
    exact kind_of_constants hnew
  · obtain ⟨-, kind, hdecl⟩ := (defines_global_iff h hs (by decide)).mp hdef
    have hname := isName_of_site h hs hdecl
    exact absurd hname (by decide)

theorem kind_of_scratch_part_second
    (hone : runLines firstPass lines (initial constants n) = (one, none))
    (hpre : runLines secondPass pre one.restart = (c, none)) {sym : Symbol}
    (hs : c.symbols.get? ("1__" : Text) = some sym) : sym.kind = .const := by
  rcases hold : one.symbols.get? ("1__" : Text) with _ | old
  · obtain ⟨p, he⟩ := (ScratchAdded.of_runLines hpre).exists_scope hs hold
    exact absurd he.symm (scratchName_ne p)
  · have hkeep := (runLines_grows_ok secondPass_grows hpre).get? hold
    rw [hs] at hkeep
    cases hkeep
    exact kind_of_scratch_part hone hold

section Names

variable (hpre : runLines secondPass pre one.restart = (c, none))
  (htwo : runLines secondPass lines one.restart = (two, none))
include hpre htwo

/-- A name that gets another meaning is the last part of the name of a scratch register. -/
theorem eq_of_shadowed {name : Text} {sym new : Symbol} (hdot : (46 : UInt8) ∉ name)
    (hglobal : c.symbols.get? name = some sym)
    (hnone : c.symbols.get? (Scope.qualifier c.process ++ name) = none)
    (hnew : two.symbols.get? (Scope.qualifier c.process ++ name) = some new) :
    name = ("1__" : Text) := by
  have hfree : one.symbols.get? (Scope.qualifier c.process ++ name) = none := by
    by_contra hold
    obtain ⟨old, hold⟩ := Option.ne_none_iff_exists'.mp hold
    have hkeep := (runLines_grows_ok secondPass_grows hpre).get? hold
    rw [hnone] at hkeep
    cases hkeep
  obtain ⟨p, he⟩ := (ScratchAdded.of_runLines htwo).exists_scope hnew hfree
  -- The name has no dot, so it is all that stands behind the last dot of the scratch register.
  cases hproc : c.process with
  | none =>
    rw [hproc] at hnone
    exact absurd (hnone.symm.trans hglobal) (by simp)
  | some q =>
    rw [hproc, Scope.qualifier, List.append_assoc] at he
    cases p with
    | none =>
      have hin : (46 : UInt8) ∈ scratchName none := by
        rw [← he]
        simp
      exact absurd hin (by decide)
    | some r =>
      rw [scratchName_some] at he
      exact (Text.append_sep_inj_right hdot (by decide) he).2

variable (hp : pre <+: lines)
include hp

theorem get?_final {name : Text} {sym : Symbol} (h : c.symbols.get? name = some sym) :
    two.symbols.get? name = some sym := by
  obtain ⟨post, rfl⟩ := hp
  rw [runLines_append post hpre] at htwo
  exact (runLines_grows_ok secondPass_grows htwo).get? h

theorem lookup_final {name : Text} {sym : Symbol} (hdot : (46 : UInt8) ∉ name)
    (h : c.scope.lookup name = .ok sym) :
    (⟨two.symbols, c.process⟩ : Scope).lookup name = .ok sym ∨
      (name = ("1__" : Text) ∧ c.symbols.get? name = some sym) := by
  rcases hscoped : c.symbols.get? (Scope.qualifier c.process ++ name) with _ | old
  · have hglobal : c.symbols.get? name = some sym := by
      rcases SymbolTable.lookup_ok h with hs | hs
      · exact absurd (hscoped.symm.trans hs) (by simp)
      · exact hs
    rcases hnew : two.symbols.get? (Scope.qualifier c.process ++ name) with _ | new
    · exact .inl (SymbolTable.lookup_of_global hnew (get?_final hpre htwo hp hglobal))
    · exact .inr ⟨eq_of_shadowed hpre htwo hdot hglobal hscoped hnew, hglobal⟩
  · have hsame : c.scope.lookup name = .ok old := SymbolTable.lookup_of_scoped hscoped
    rw [h] at hsame
    cases hsame
    exact .inl (SymbolTable.lookup_of_scoped (get?_final hpre htwo hp hscoped))

variable (hone : runLines firstPass lines (initial constants n) = (one, none))
include hone

/-- What the tokens of a line stand for when the second pass comes to it, they stand for at the
end. -/
theorem carries_final (line : Line) : c.scope.Carries ⟨two.symbols, c.process⟩ line.body := by
  intro t ht
  constructor
  · intro hk sym hs
    have hdot := Line.dot_notMem_names ht t.text (by simp [Token.names_of_identifier hk])
    rcases lookup_final hpre htwo hp hdot hs with hs' | ⟨hpart, -⟩
    · exact hs'
    · have hlaw := Line.lawful_of_mem_body ht
      rw [Token.Lawful, hk, hpart] at hlaw
      exact absurd hlaw (by decide)
  · intro hk r hr
    have hdot := Line.dot_notMem_names ht t.text (by simp [Token.names_of_indirection hk])
    obtain ⟨sym, hs, hreg⟩ := except_bind_ok hr
    rcases lookup_final hpre htwo hp hdot hs with hs' | ⟨hpart, hglobal⟩
    · rw [← Scope.registerNamed_congr (hs.trans hs'.symm)]
      exact hr
    -- What is in parentheses need not be a name, but this part has been no register.
    · rw [hpart] at hglobal
      have hkind := kind_of_scratch_part_second hone hpre hglobal
      rw [if_neg (by simp [hkind])] at hreg
      cases hreg

end Names

/-- The step emits these words for the line, or none. -/
structure EmitsWords (line : Line) (ws : Option (List Word)) (a b : Assembly) : Prop where
  pc : b.pc = a.pc + (ws.getD []).length
  opcodes : b.opcodes.toList = a.opcodes.toList ++
    ws.toList.map fun w => ⟨line.number, a.pc, w, line.text⟩

theorem emitsWords_none (hpc : b.pc = a.pc) (hops : b.opcodes = a.opcodes) :
    EmitsWords line none a b := ⟨hpc, by rw [hops]; simp⟩

theorem emitsWords_some {ws : List Word} (hpc : b.pc = a.pc + ws.length)
    (hops : b.opcodes = a.opcodes.push ⟨line.number, a.pc, ws, line.text⟩) :
    EmitsWords line (some ws) a b := ⟨hpc, by rw [hops]; simp⟩

theorem reopenProcess_of_name {name : Text} (hp : a.process = none)
    (hn : (Statement.processName ts).1 = .ok name) :
    a.reopenProcess line ts = ({ a with process := some name }.list line a.pc [], none) := by
  rw [reopenProcess_eq, hp, hn]
  rfl

theorem recloseProcess_of_finish {name : Text} (hp : a.process = some name)
    (hf : (Reader.finish ts).1 = .ok ()) :
    a.recloseProcess line ts = ({ a with process := none }.list line (-1) [], none) := by
  rw [recloseProcess_eq, hp, hf]
  rfl

/-- The statement of the line is an instruction or a pseudo-instruction, which is assembled. -/
def Assembles (line : Line) (a b : Assembly) : Prop :=
  ∃ t ts, line.body = t :: ts ∧
    ((t.kind = .instruction ∧
        ∃ m, Mnemonic.ofName? t.text = some m ∧ a.encode line m ts = (b, none)) ∨
      (t.kind = .pseudo ∧
        ∃ op, PseudoOp.ofName? t.text = some op ∧ a.expand line op ts = (b, none)))

theorem Assembles.generate (h : Assembles line a b) : a.generate line line.body = (b, none) := by
  obtain ⟨t, ts, hbody, ⟨hk, m, hm, hb⟩ | ⟨hk, op, hop, hb⟩⟩ := h
  · rw [hbody]
    simp only [generate_cons, hk, hm]
    exact hb
  · rw [hbody]
    simp only [generate_cons, hk, hop]
    exact hb

theorem encode_again {m : Mnemonic} {i : Instruction} (h : c.scope.Carries x.scope ts)
    (hi : Instruction.read c.scope m ts = (.ok i, [])) :
    x.encode line m ts = (x.emit line i.word, none) := by
  have hread := (Reader.Carried.congruence.instruction m).ok ts i [] h hi
  rw [encode_eq, Instruction.readAll_of_read hread]
  rfl

theorem scratchFor_again {p : Pseudo} {r : Register} (h : c.scratchFor line p = (b, .ok r))
    (hp : x.process = c.process)
    (hx : ∀ name sym, b.symbols.get? name = some sym → x.symbols.get? name = some sym) :
    x.scratchFor line p = (x, .ok r) := by
  by_cases hu : p.usesScratch = true
  · obtain ⟨sym, hsym, rfl⟩ := scratchFor_symbol hu h
    rw [scratchFor_eq_ite, if_pos hu, scratch_eq, hp, hx _ _ hsym]
  · rw [scratchFor_eq_ite, if_neg hu] at h ⊢
    cases h
    rfl

theorem expand_again {op : PseudoOp} {p : Pseudo} {r : Register} (h : c.scope.Carries x.scope ts)
    (hread : Pseudo.read c.scope op ts = (.ok p, [])) (hs : c.scratchFor line p = (b, .ok r))
    (hp : x.process = c.process)
    (hx : ∀ name sym, b.symbols.get? name = some sym → x.symbols.get? name = some sym) :
    x.expand line op ts = (x.emitExpansion line (p.words r), none) :=
  expand_of_read ((Reader.Carried.congruence.pseudo op).ok ts p [] h hread)
    (scratchFor_again hs hp hx)

/-- A statement that was assembled once is assembled with the same words wherever its tokens stand
for the same and all its symbols are there. -/
theorem Generated.again {symbols : SymbolTable} (h : Generated c line line.body d)
    (hcarry : c.scope.Carries ⟨symbols, c.process⟩ line.body)
    (hsyms : ∀ name sym, d.symbols.get? name = some sym → symbols.get? name = some sym) :
    ∃ ws, EmitsWords line ws c d ∧ ∀ x, x.symbols = symbols → x.process = c.process →
      ∃ y, x.generate line line.body = (y, none) ∧ EmitsWords line ws x y ∧ y.tables = x.tables ∧
        y.process = d.process ∧ (ws.isSome → Assembles line x y) := by
  have hscope : ∀ x : Assembly, x.symbols = symbols → x.process = c.process →
      c.scope.Carries x.scope line.body := by
    rintro x rfl hp
    rw [← hp] at hcarry
    exact hcarry
  generalize hbody : line.body = body at h hscope
  cases h with
  | lone =>
    refine ⟨none, emitsWords_none rfl rfl, fun x _ hp => ?_⟩
    exact ⟨x.list line x.pc [], x.generate_nil line, emitsWords_none rfl rfl, rfl, hp, by simp⟩
  | declaration hk =>
    refine ⟨none, emitsWords_none rfl rfl, fun x _ hp => ?_⟩
    refine ⟨x, ?_, emitsWords_none rfl rfl, rfl, hp, by simp⟩
    rcases hk with hk | hk | hk <;> simp [generate_cons, hk]
  | @opening t ts name hk hproc hn =>
    refine ⟨none, emitsWords_none rfl rfl, fun x _ hp => ?_⟩
    refine ⟨{ x with process := some name }.list line x.pc [], ?_, emitsWords_none rfl rfl, rfl,
      rfl, by simp⟩
    simp only [generate_cons, hk]
    exact reopenProcess_of_name (hp.trans hproc) hn
  | @closing t ts name hk hproc hf =>
    refine ⟨none, emitsWords_none rfl rfl, fun x _ hp => ?_⟩
    refine ⟨{ x with process := none }.list line (-1) [], ?_, emitsWords_none rfl rfl, rfl, rfl,
      by simp⟩
    simp only [generate_cons, hk]
    exact recloseProcess_of_finish (hp.trans hproc) hf
  | @instruction t ts m i hk hm hi =>
    refine ⟨some [i.word], emitsWords_some rfl rfl, fun x hs hp => ?_⟩
    have hencode : x.encode line m ts = (x.emit line i.word, none) :=
      encode_again ((hscope x hs hp).subset (by simp)) hi
    have hassembles : Assembles line x (x.emit line i.word) :=
      ⟨t, ts, hbody, .inl ⟨hk, m, hm, hencode⟩⟩
    refine ⟨x.emit line i.word, ?_, emitsWords_some rfl rfl, rfl, hp, fun _ => hassembles⟩
    rw [← hbody]
    exact hassembles.generate
  | @pseudo t ts op p b r hk ho hread hscratch =>
    obtain ⟨hpc, hproc, hops⟩ := scratchFor_place hscratch
    let ws := p.words r
    have hfirst : EmitsWords line (some ws) c (b.emitExpansion line ws) := by
      apply emitsWords_some
      · rw [← hpc]
        rfl
      · rw [← hpc, ← hops]
        rfl
    refine ⟨some ws, hfirst, fun x hs hp => ?_⟩
    have hexpand : x.expand line op ts = (x.emitExpansion line ws, none) := by
      refine expand_again ((hscope x hs hp).subset (by simp)) hread hscratch hp ?_
      rw [hs]
      exact hsyms
    have hassembles : Assembles line x (x.emitExpansion line ws) :=
      ⟨t, ts, hbody, .inr ⟨hk, op, ho, hexpand⟩⟩
    refine ⟨x.emitExpansion line ws, ?_, emitsWords_some rfl rfl, rfl, ?_, fun _ => hassembles⟩
    · rw [← hbody]
      exact hassembles.generate
    · exact hp.trans hproc.symm

/-- The opcode is that of one of the lines. With these symbols, and in the process of the line, its
statement is assembled to the words of the opcode, and no table changes. -/
def Reassembled (symbols : SymbolTable) (lines : List Line) (o : Opcode) : Prop :=
  ∃ s ∈ Source.sites lines, o.line = s.line.number ∧ o.text = s.line.text ∧
    ∀ x : Assembly, x.symbols = symbols → x.process = s.process →
      ∃ y, Assembles s.line x y ∧
        y.opcodes = x.opcodes.push ⟨o.line, x.pc, o.words, o.text⟩ ∧ y.tables = x.tables

section Run

variable (hone : runLines firstPass lines (initial constants n) = (one, none))
  (htwo : runLines secondPass lines one.restart = (two, none))
include hone htwo

/-- With the final symbols a line gives the words that it has given. -/
theorem secondPass_again (hp : pre ++ [line] <+: lines)
    (hpre : runLines secondPass pre one.restart = (c, none))
    (hd : secondPass line c = (d, none)) :
    ∃ ws, EmitsWords line ws c d ∧ ∀ x, x.symbols = two.symbols → x.process = c.process →
      (∃ y, secondPass line x = (y, none) ∧ EmitsWords line ws x y ∧ y.tables = x.tables ∧
        y.process = d.process) ∧
      (ws.isSome → ∃ y, Assembles line x y ∧ EmitsWords line ws x y ∧ y.tables = x.tables) := by
  have hcarry := carries_final hpre htwo ((List.prefix_append pre [line]).trans hp) hone line
  have hrun : runLines secondPass (pre ++ [line]) one.restart = (d, none) :=
    runLines_append_ok.mpr ⟨c, hpre, runLines_cons_ok.mpr ⟨d, hd, rfl⟩⟩
  rcases secondPass_ok hd with ⟨hnone, rfl⟩ | ⟨s, hs, hg⟩
  · refine ⟨none, emitsWords_none rfl rfl, fun x _ hproc => ⟨?_, by simp⟩⟩
    refine ⟨x.record (.line 2 line), ?_, emitsWords_none rfl rfl, rfl, hproc⟩
    rw [secondPass_eq, hnone]
  · rw [← Line.body_of_some hs] at hg
    obtain ⟨ws, hws, hagain⟩ := hg.again hcarry fun _ _ => get?_final hrun htwo hp
    refine ⟨ws, ⟨hws.pc, hws.opcodes⟩, fun x hsyms hproc => ⟨?_, ?_⟩⟩
    · obtain ⟨y, hy, hw, hk, hproc', -⟩ := hagain (x.record (.line 2 line)) hsyms hproc
      refine ⟨y, ?_, ⟨hw.pc, hw.opcodes⟩, hk, hproc'⟩
      rw [secondPass_eq, hs, ← hy, Line.body_of_some hs]
    · intro hsome
      obtain ⟨y, -, hw, hk, -, hassembles⟩ := hagain x hsyms hproc
      exact ⟨y, hassembles hsome, hw, hk⟩

theorem opcodes_again : ∀ o ∈ two.opcodes.toList, Reassembled two.symbols lines o := by
  refine runLines_induction
    (P := fun pre c => ∀ o ∈ c.opcodes.toList, Reassembled two.symbols pre o) htwo ?_ ?_
  · have hempty : one.opcodes = #[] := firstPass_opcodes hone
    intro o ho
    change o ∈ one.opcodes.toList at ho
    rw [hempty] at ho
    cases ho
  · intro pre line c d hp hc hall hd o ho
    obtain ⟨ws, hws, hagain⟩ := secondPass_again hone htwo hp hc hd
    rw [hws.opcodes, List.mem_append] at ho
    rw [Reassembled, Source.sites_concat]
    rcases ho with ho | ho
    · obtain ⟨s, hs, hrest⟩ := hall o ho
      exact ⟨s, List.mem_append_left _ hs, hrest⟩
    · obtain ⟨w, hw, rfl⟩ := List.mem_map.mp ho
      obtain rfl : ws = some w := Option.mem_toList.mp hw
      refine ⟨_, List.mem_append_right _ (List.mem_singleton_self _), rfl, rfl, ?_⟩
      intro x hsyms hproc
      have hcp := (secondPass_place hc).2
      obtain ⟨y, hassembles, hy, hk⟩ := (hagain x hsyms (hproc.trans hcp.symm)).2 rfl
      refine ⟨y, hassembles, ?_, hk⟩
      exact Array.toList_inj.mp (by simpa using hy.opcodes)

theorem runLines_again {z : Assembly} (hsyms : z.symbols = two.symbols) (hproc : z.process = none)
    (hpc : z.pc = 0) (hops : z.opcodes = #[]) :
    ∃ y, runLines secondPass lines z = (y, none) ∧ y.opcodes = two.opcodes ∧
      y.tables = z.tables := by
  suffices hrun : ∃ y, runLines secondPass lines z = (y, none) ∧ y.tables = z.tables ∧
      y.process = two.process ∧ y.pc = two.pc ∧ y.opcodes = two.opcodes by
    obtain ⟨y, hy, hk, -, -, ho⟩ := hrun
    exact ⟨y, hy, ho, hk⟩
  refine runLines_induction (P := fun pre c => ∃ y, runLines secondPass pre z = (y, none) ∧
    y.tables = z.tables ∧ y.process = c.process ∧ y.pc = c.pc ∧ y.opcodes = c.opcodes) htwo ?_ ?_
  · refine ⟨z, rfl, rfl, hproc, hpc, ?_⟩
    rw [hops]
    exact (firstPass_opcodes hone).symm
  · rintro pre line c d hp hc ⟨y, hy, hk, hyp, hypc, hyops⟩ hd
    obtain ⟨ws, hws, hagain⟩ := secondPass_again hone htwo hp hc hd
    obtain ⟨⟨y', hy', hw, hk', hp'⟩, -⟩ := hagain y ((congrArg Tables.symbols hk).trans hsyms) hyp
    refine ⟨y', ?_, hk'.trans hk, hp', ?_, ?_⟩
    · exact runLines_append_ok.mpr ⟨y, hy, runLines_cons_ok.mpr ⟨y', hy', rfl⟩⟩
    · rw [hw.pc, hws.pc, hypc]
    · apply Array.toList_inj.mp
      rw [hw.opcodes, hws.opcodes, hypc, hyops]

end Run

/-- The symbols that an assembly ends with account for all its words. Whatever else is in the state,
with these symbols and in the process of its line the statement of each opcode is assembled again to
the same words, and no table changes, so that no symbol is new. The second pass over all lines is
repeated in the same way. -/
theorem words_reassembled {program : Program} (h : run constants lines = (a, .ok program)) :
    (∀ o ∈ program.opcodes.toList, Reassembled a.symbols lines o) ∧
      ∀ z : Assembly, z.symbols = a.symbols → z.process = none → z.pc = 0 → z.opcodes = #[] →
        ∃ y, runLines secondPass lines z = (y, none) ∧ y.opcodes = program.opcodes ∧
          y.tables = z.tables := by
  obtain ⟨one, two, hone, -, htwo, -, rfl, rfl⟩ := run_ok h
  constructor
  · exact opcodes_again hone htwo
  · intro z hsyms hproc hpc hops
    exact runLines_again hone htwo hsyms hproc hpc hops

theorem words_reassembled_sample :
    ∃ a program y, run {} (Line.ofTexts Source.sample) = (a, .ok program) ∧
      runLines secondPass (Line.ofTexts Source.sample) { a.restart with opcodes := #[] } =
        (y, none) ∧
      y.opcodes = program.opcodes ∧ y.symbols = a.symbols := by
  obtain ⟨a, program, h⟩ := Source.run_sample
  obtain ⟨-, hagain⟩ := words_reassembled h
  obtain ⟨y, hy, hops, hk⟩ := hagain { a.restart with opcodes := #[] } rfl rfl rfl rfl
  exact ⟨a, program, y, h, hy, hops, congrArg Tables.symbols hk⟩

end Assembly
end BarrelAsm
