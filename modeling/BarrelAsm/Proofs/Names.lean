import BarrelAsm.Proofs.Handler
import BarrelAsm.Proofs.Token

/-! The names of a statement. A reader sees the symbols only through the names of the tokens it is
given, and none of these names has a dot. -/
namespace BarrelAsm

namespace Token

/-- The names that are looked up for a token: its text, or the names in the expression of a size. -/
def names (t : Token) : List Text :=
  match t.kind with
  | .identifier | .indirection => [t.text]
  | .size => ((tokenize t.text).filter (·.kind = .identifier)).map (·.text)
  | _ => []

theorem require_ok {kinds : List TokenKind} {t u : Token} (h : t.require kinds = .ok u) :
    t = u ∧ t.kind ∈ kinds := by
  unfold require at h
  split_ifs at h with hk
  cases h
  exact ⟨rfl, hk⟩

theorem names_of_identifier {t : Token} (h : t.kind = .identifier) : t.names = [t.text] := by
  rw [names, h]

theorem names_of_indirection {t : Token} (h : t.kind = .indirection) : t.names = [t.text] := by
  rw [names, h]

theorem parenthesised?_all {t w : Text} (h : parenthesised? t = some w) :
    w.all Text.isWordByte = true := by
  fun_induction parenthesised? t with
  | case1 => cases h
  | case2 =>
    cases h
    exact List.all_takeWhile
  | case3 _ _ _ ih => exact ih h

theorem kind_ofPlain_ne (t : Text) : (ofPlain t).kind ≠ .indirection := by
  unfold ofPlain
  split_ifs <;> simp

theorem keyword?_ne (t : Text) : keyword? t ≠ some .indirection := by
  unfold keyword?
  split_ifs <;> simp

theorem all_ofDelimited {t : Text} :
    (ofDelimited t).kind = .indirection → (ofDelimited t).text.all Text.isWordByte = true := by
  unfold ofDelimited
  split
  · simp
  · split
    · simp
    · split
      · rename_i w hw
        exact fun _ => parenthesised?_all hw
      · exact fun h => absurd h (kind_ofPlain_ne t)

/-- What stands in the parentheses of an indirection is a word. -/
theorem all_ofText {t : Text} :
    (ofText t).kind = .indirection → (ofText t).text.all Text.isWordByte = true := by
  unfold ofText
  split_ifs
  · simp
  · simp
  · split
    · simp
    · split
      · rename_i k hk
        rintro rfl
        exact absurd hk (keyword?_ne t)
      · split
        · simp
        · exact all_ofDelimited

theorem dot_notMem_identifier {line : Text} {t : Token} (h : t ∈ tokenize line)
    (hk : t.kind = .identifier) : (46 : UInt8) ∉ t.text := by
  have hlaw := lawful_of_mem_tokenize h
  rw [Lawful, hk] at hlaw
  exact Text.dot_notMem_of_all (Text.all_isWordByte_of_isName hlaw)

theorem dot_notMem_names {line : Text} {t : Token} (h : t ∈ tokenize line) :
    ∀ n ∈ t.names, (46 : UInt8) ∉ n := by
  intro n hn
  unfold names at hn
  split at hn
  · rename_i hk
    rw [List.mem_singleton.mp hn]
    exact dot_notMem_identifier h hk
  · rename_i hk
    rw [List.mem_singleton.mp hn]
    obtain ⟨piece, -, rfl⟩ := List.mem_map.mp h
    exact Text.dot_notMem_of_all (all_ofText hk)
  · obtain ⟨u, hu, rfl⟩ := List.mem_map.mp hn
    obtain ⟨hu, hk⟩ := List.mem_filter.mp hu
    exact dot_notMem_identifier hu (of_decide_eq_true hk)
  · cases hn

end Token

/-- The faults that the tokens of a statement give rise to, whatever is in the other tables. -/
def Fault.ofTokens : Fault → Bool
  | unrecognized _ | unexpected _ _ | trailing _ | undeclared _ | wrongKind _ | outOfRange _ _
  | divisionByZero => true
  | _ => false

/-- A computation that fails because of tokens only. -/
def FaultsOfTokens {α : Type} (x : Except Fault α) : Prop := ∀ f, x = .error f → f.ofTokens = true

namespace FaultsOfTokens

variable {α β : Type}

theorem ok (a : α) : FaultsOfTokens (.ok a) := nofun

theorem error {f : Fault} (h : f.ofTokens = true) : FaultsOfTokens (.error f : Except Fault α) := by
  intro g hg
  cases hg
  exact h

theorem bind {x : Except Fault α} {g : α → Except Fault β} (hx : FaultsOfTokens x)
    (hg : ∀ a, FaultsOfTokens (g a)) : FaultsOfTokens (x >>= g) := by
  cases x with
  | error f => exact .error (hx f rfl)
  | ok a => exact hg a

theorem require (kinds : List TokenKind) (t : Token) : FaultsOfTokens (t.require kinds) := by
  unfold Token.require
  split_ifs
  · exact .ok t
  · exact .error rfl
  · exact .error rfl

theorem lookup (s : Scope) (n : Text) : FaultsOfTokens (s.lookup n) := by
  unfold Scope.lookup SymbolTable.lookup
  split
  · exact .ok _
  · exact .error rfl

theorem symbolValue (n : Text) (sym : Symbol) : FaultsOfTokens (Scope.symbolValue n sym) := by
  unfold Scope.symbolValue
  split
  · exact .ok _
  · exact .ok _
  · exact .ok _
  · exact .error rfl

theorem valueOf (s : Scope) (t : Token) : FaultsOfTokens (s.valueOf t) := by
  refine .bind (.require _ t) fun u => ?_
  split_ifs
  · exact .ok _
  · exact .bind (.lookup s _) (.symbolValue _)

theorem registerNamed (s : Scope) (n : Text) : FaultsOfTokens (s.registerNamed n) := by
  refine .bind (.lookup s n) fun sym => ?_
  split_ifs
  · exact .ok _
  · exact .error rfl

theorem labelNamed (s : Scope) (n : Text) : FaultsOfTokens (s.labelNamed n) := by
  refine .bind (.lookup s n) fun sym => ?_
  split_ifs
  · exact .ok _
  · exact .error rfl

theorem apply (op : Text) (a b : Int) : FaultsOfTokens (Expr.apply op a b) := by
  unfold Expr.apply
  split_ifs
  · exact .ok _
  · exact .ok _
  · exact .ok _
  · exact .error rfl
  · exact .ok _
  · exact .ok _

theorem continueFrom (s : Scope) (acc : Int) (ts : List Token) :
    FaultsOfTokens (Expr.continueFrom s acc ts).1 := by
  fun_induction Expr.continueFrom s acc ts with
  | case1 acc => exact .ok acc
  | case2 acc => exact .ok acc
  | case3 acc t ht f ts hf => exact .error (require _ t f hf)
  | case4 => exact .error rfl
  | case5 acc t ht op u us hop f hf => exact .error ((valueOf s u).bind (.apply _ acc) f hf)
  | case6 acc t ht op u us hop v hv ih => exact ih

theorem evaluate (s : Scope) (ts : List Token) : FaultsOfTokens (Expr.evaluate s ts).1 := by
  cases ts with
  | nil => exact .error rfl
  | cons t ts =>
    rcases hv : s.valueOf t with f | v
    · simp only [Expr.evaluate, hv]
      exact .error (valueOf s t f hv)
    · simp only [Expr.evaluate, hv]
      exact .continueFrom s v ts

end FaultsOfTokens

namespace Scope

variable {s s' : Scope} {ts us : List Token}

/-- The names of these tokens mean the same in both scopes. -/
def Agree (s s' : Scope) (ts : List Token) : Prop :=
  ∀ t ∈ ts, ∀ n ∈ t.names, s.lookup n = s'.lookup n

theorem Agree.subset (h : Agree s s' ts) (hu : us ⊆ ts) : Agree s s' us := fun t ht => h t (hu ht)

theorem registerNamed_congr {n : Text} (h : s.lookup n = s'.lookup n) :
    s.registerNamed n = s'.registerNamed n := by
  unfold registerNamed
  rw [h]

theorem labelNamed_congr {n : Text} (h : s.lookup n = s'.lookup n) :
    s.labelNamed n = s'.labelNamed n := by
  unfold labelNamed
  rw [h]

theorem valueOf_congr {t : Token} (h : t.kind = .identifier → s.lookup t.text = s'.lookup t.text) :
    s.valueOf t = s'.valueOf t := by
  unfold valueOf
  rcases hr : t.require valueKinds with f | u
  · rfl
  · obtain ⟨rfl, hk⟩ := Token.require_ok hr
    change (if t.kind = .number then _ else s.lookup t.text >>= symbolValue t.text) =
      if t.kind = .number then _ else s'.lookup t.text >>= symbolValue t.text
    split_ifs with hn
    · rfl
    · rw [h (by simpa [valueKinds, hn] using hk)]

end Scope

namespace Expr

variable {s s' : Scope} {ts : List Token}

theorem continueFrom_congr (acc : Int)
    (h : ∀ t ∈ ts, t.kind = .identifier → s.lookup t.text = s'.lookup t.text) :
    continueFrom s acc ts = continueFrom s' acc ts := by
  fun_induction continueFrom s acc ts with
  | case1 => rfl
  | case2 acc t ts hc =>
    unfold continueFrom
    simp [hc]
  | case3 acc t hc ts f hr => simp [continueFrom, hc, hr]
  | case4 acc t hc op hr => simp [continueFrom, hc, hr]
  | case5 acc t hc op u us hr f hv =>
    rw [Scope.valueOf_congr (h u (by simp))] at hv
    simp [continueFrom, hc, hr, hv]
  | case6 acc t hc op u us hr v hv ih =>
    rw [Scope.valueOf_congr (h u (by simp))] at hv
    rw [ih fun w hw => h w (by simp [hw])]
    simp [continueFrom, hc, hr, hv]

theorem evaluate_congr
    (h : ∀ t ∈ ts, t.kind = .identifier → s.lookup t.text = s'.lookup t.text) :
    evaluate s ts = evaluate s' ts := by
  cases ts with
  | nil => rfl
  | cons t ts =>
    have ht := Scope.valueOf_congr (h t (by simp))
    unfold evaluate
    dsimp only
    rw [← ht]
    rcases s.valueOf t with f | v
    · rfl
    · exact continueFrom_congr v fun w hw => h w (by simp [hw])

theorem size_congr {text : Text}
    (h : ∀ t ∈ Token.tokenize text, t.kind = .identifier → s.lookup t.text = s'.lookup t.text) :
    size s text = size s' text := by
  unfold size
  rw [Stateful.bind_apply, Stateful.bind_apply, evaluate_congr h]

end Expr

theorem DataItem.advances_read (s : Scope) : Reader.Advances (read s) := by
  intro ts
  cases ts with
  | nil => exact List.suffix_refl []
  | cons t us =>
    simp only [read]
    rcases hu : t.require kinds with f | u
    · exact List.suffix_cons t us
    · obtain ⟨rfl, -⟩ := Token.require_ok hu
      dsimp only
      split
      · exact List.suffix_cons t us
      · exact List.suffix_cons t us
      · rw [map_eq_pure_bind]
        exact Reader.Advances.bind (Expr.advances_evaluate s) (fun v => .pure _) (t :: us)

namespace Reader

variable {α β : Type} {s s' : Scope}

/-- A relation between readers in two scopes that holds of a statement if it holds of what
statements are made of. -/
structure Congruence (s s' : Scope) (R : (α : Type) → Reader α → Reader α → Prop) : Prop where
  pure : ∀ {α : Type} (a : α), R α (pure a) (pure a)
  bind : ∀ {α β : Type} {x x' : Reader α} {f f' : α → Reader β}, R α x x' →
    (∀ a, R β (f a) (f' a)) → R β (x >>= f) (x' >>= f')
  comma : R Unit comma comma
  more : R Bool more more
  finish : R Unit finish finish
  register : R Register (register s) (register s')
  operand : R Operand (operand s) (operand s')
  indirection : R Register (indirection s) (indirection s')
  label : R Int (label s) (label s')
  immediate : R Int (Expr.immediate s) (Expr.immediate s')
  bit : R UInt8 (bit s) (bit s')

namespace Congruence

variable {R : (α : Type) → Reader α → Reader α → Prop} (h : Congruence s s' R)
include h

/-- An operand and the comma behind it. -/
theorem sep {x x' : Reader α} {f f' : α → Reader β} (hx : R α x x') (hf : ∀ a, R β (f a) (f' a)) :
    R β (do let a ← x; Reader.comma; f a) (do let a ← x'; Reader.comma; f' a) :=
  h.bind hx fun a => h.bind h.comma fun _ => hf a

/-- The last operand. -/
theorem last {x x' : Reader α} (hx : R α x x') (g : α → β) :
    R β (do let a ← x; return g a) (do let a ← x'; return g a) :=
  h.bind hx fun _ => h.pure _

theorem target : R UInt16 (target s) (target s') := h.last h.label _

theorem source (t : Operand) :
    R Operand (Instruction.readSource s t) (Instruction.readSource s' t) := by
  refine h.bind h.more fun b => ?_
  split_ifs
  · exact h.bind h.comma fun _ => h.operand
  · exact h.pure _

theorem instruction (m : Mnemonic) :
    R Instruction (Instruction.read s m) (Instruction.read s' m) := by
  cases m with
  | alu => exact h.sep h.operand fun _ => h.sep h.register fun _ => h.last h.operand _
  | srl => exact h.sep h.operand fun _ => h.last h.register _
  | immediate => exact h.sep h.register fun _ => h.last h.immediate _
  | jalr => exact h.sep h.register fun _ => h.last h.register _
  | compare => exact h.sep h.register fun _ => h.sep h.register fun _ => h.last h.register _
  | bitTest => exact h.sep h.register fun _ => h.sep h.bit fun _ => h.last h.register _
  | bitFlag => exact h.sep h.operand fun t => h.bind h.bit fun _ => h.last (h.source t) _
  | nop => exact h.pure _

theorem instructionAll (m : Mnemonic) :
    R Instruction (Instruction.readAll s m) (Instruction.readAll s' m) :=
  h.bind (h.instruction m) fun _ => h.bind h.finish fun _ => h.pure _

theorem pseudo (op : PseudoOp) : R Pseudo (Pseudo.read s op) (Pseudo.read s' op) := by
  cases op with
  | call | djnz => exact h.sep h.register fun _ => h.last h.target _
  | jmp => exact h.last h.target _
  | ret | step => exact h.last h.register _
  | sll => exact h.sep h.operand fun _ => h.last h.register _
  | sub => exact h.sep h.operand fun _ => h.sep h.register fun _ => h.last h.operand _
  | order => exact h.sep h.register fun _ => h.sep h.register fun _ => h.last h.register _
  | branch => exact h.sep h.register fun _ => h.sep h.register fun _ => h.last h.target _
  | bitBranch => exact h.sep h.register fun _ => h.sep h.bit fun _ => h.last h.target _
  | ld => exact h.sep h.register fun _ => h.last h.indirection _
  | st => exact h.sep h.indirection fun _ => h.last h.register _
  | mov => exact h.sep h.operand fun _ => h.last h.operand _

end Congruence

/-- Readers that do the same on all tokens whose names mean the same in both scopes. They leave an
end of what they were given, and fail because of the tokens only. -/
structure Alike (s s' : Scope) (x x' : Reader α) : Prop where
  advances : x.Advances
  faults : ∀ ts, FaultsOfTokens (x ts).1
  eq : ∀ ts, s.Agree s' ts → x ts = x' ts

namespace Alike

theorem refl {x : Reader α} (ha : x.Advances) (hf : ∀ ts, FaultsOfTokens (x ts).1) :
    Alike s s' x x := ⟨ha, hf, fun _ _ => rfl⟩

theorem pure (a : α) : Alike s s' (pure a) (pure a) := .refl (.pure a) fun _ => .ok a

theorem lift {x x' : Except Fault α} (hx : FaultsOfTokens x) (h : x = x') :
    Alike s s' (liftM x : Reader α) (liftM x') := h ▸ .refl (.lift x) fun _ => hx

theorem bind {x x' : Reader α} {f f' : α → Reader β} (hx : Alike s s' x x')
    (hf : ∀ a, Alike s s' (f a) (f' a)) : Alike s s' (x >>= f) (x' >>= f') where
  advances := .bind hx.advances fun a => (hf a).advances
  faults := by
    intro ts
    rw [Stateful.bind_apply]
    rcases hxt : x ts with ⟨e | a, mid⟩
    · exact .error (hx.faults ts e (by rw [hxt]))
    · exact (hf a).faults mid
  eq := by
    intro ts h
    rw [Stateful.bind_apply, Stateful.bind_apply, ← hx.eq ts h]
    rcases hxt : x ts with ⟨e | a, mid⟩
    · rfl
    · exact (hf a).eq mid (h.subset (hx.advances.suffix hxt).subset)

theorem expect (kinds : List TokenKind) : Alike s s' (expect kinds) (expect kinds) := by
  refine .refl (.expect kinds) fun ts => ?_
  cases ts with
  | nil => exact .error rfl
  | cons t ts => exact .require kinds t

theorem ahead (kinds : List TokenKind) : Alike s s' (ahead kinds) (ahead kinds) := by
  refine .refl (.ahead kinds) fun ts => ?_
  unfold Reader.ahead
  rcases he : Reader.expect kinds ts with ⟨e | t, mid⟩
  · exact .error ((@expect s s' kinds).faults ts e (by rw [he]))
  · exact .ok ()

theorem more : Alike s s' more more := .refl .more fun _ => .ok _

theorem finish : Alike s s' finish finish := by
  refine .refl .finish fun ts => ?_
  cases ts with
  | nil => exact .ok ()
  | cons t ts => exact .error rfl

theorem comma : Alike s s' comma comma := .bind (.expect _) fun _ => .pure ()

/-- A token, and what its name stands for. -/
theorem named {kinds : List TokenKind} (hk : ∀ k ∈ kinds, k = .identifier ∨ k = .indirection)
    {f f' : Token → Reader β} (hself : ∀ t, Alike s s (f t) (f t))
    (hf : ∀ t, s.lookup t.text = s'.lookup t.text → f t = f' t) :
    Alike s s' (Reader.expect kinds >>= f) (Reader.expect kinds >>= f') where
  advances := .bind (.expect kinds) fun t => (hself t).advances
  faults := (bind (@expect s s kinds) hself).faults
  eq := by
    intro ts h
    rw [Stateful.bind_apply, Stateful.bind_apply]
    rcases he : Reader.expect kinds ts with ⟨e | t, mid⟩
    · rfl
    · obtain ⟨rfl, hm⟩ := expect_ok he
      have hname : t.text ∈ t.names := by
        rcases hk _ hm with hk | hk
        · simp [Token.names_of_identifier hk]
        · simp [Token.names_of_indirection hk]
      exact congrFun (hf t (h t (by simp) _ hname)) mid

theorem register : Alike s s' (register s) (register s') :=
  .named (by simp) (fun _ => .lift (.registerNamed s _) rfl) fun _ h => by
    rw [Scope.registerNamed_congr h]

theorem operand : Alike s s' (operand s) (operand s') :=
  .named (by simp) (fun _ => .bind (.lift (.registerNamed s _) rfl) fun _ => .pure _) fun _ h => by
    rw [Scope.registerNamed_congr h]

theorem indirection : Alike s s' (indirection s) (indirection s') :=
  .named (by simp) (fun _ => .lift (.registerNamed s _) rfl) fun _ h => by
    rw [Scope.registerNamed_congr h]

theorem label : Alike s s' (label s) (label s') :=
  .named (by simp) (fun _ => .lift (.labelNamed s _) rfl) fun _ h => by
    rw [Scope.labelNamed_congr h]

theorem evaluate : Alike s s' (Expr.evaluate s) (Expr.evaluate s') where
  advances := Expr.advances_evaluate s
  faults := FaultsOfTokens.evaluate s
  eq := by
    intro ts h
    refine Expr.evaluate_congr fun t ht hk => h t ht _ ?_
    simp [Token.names_of_identifier hk]

theorem immediate : Alike s s' (Expr.immediate s) (Expr.immediate s') :=
  .bind (.ahead _) fun _ => .evaluate

theorem optional : Alike s s' (Expr.optional s) (Expr.optional s') := by
  refine .bind .more fun b => ?_
  split_ifs
  · exact .immediate
  · exact .pure _

theorem bit : Alike s s' (bit s) (bit s') := by
  refine .bind .immediate fun v => ?_
  split_ifs
  · exact .bind (.lift (.error rfl) rfl) fun _ => .pure _
  · exact .pure _

theorem faults_size (s : Scope) (text : Text) : FaultsOfTokens (Expr.size s text) := by
  have hread : Alike s s (do let v ← Expr.evaluate s; Reader.finish; return v)
      (do let v ← Expr.evaluate s; Reader.finish; return v) :=
    .bind .evaluate fun v => .bind .finish fun _ => .pure v
  refine .bind (hread.faults _) fun v => ?_
  split_ifs
  · exact .error rfl
  · exact .ok v

theorem faults_dataItem (s : Scope) (ts : List Token) : FaultsOfTokens (DataItem.read s ts).1 := by
  cases ts with
  | nil => exact .ok _
  | cons t us =>
    simp only [DataItem.read]
    rcases hu : t.require DataItem.kinds with f | u
    · exact .error (FaultsOfTokens.require _ t f hu)
    · dsimp only
      split
      · exact .ok _
      · exact .bind (faults_size s u.text) fun n => .ok _
      · exact (bind (@evaluate s s) fun v => .pure (DataItem.value v)).faults _

theorem dataItem : Alike s s' (DataItem.read s) (DataItem.read s') where
  advances := DataItem.advances_read s
  faults := faults_dataItem s
  eq := by
    intro ts h
    cases ts with
    | nil => rfl
    | cons t rest =>
      simp only [DataItem.read]
      rcases hr : t.require DataItem.kinds with f | u
      · rfl
      · obtain ⟨rfl, -⟩ := Token.require_ok hr
        dsimp only
        split
        · rfl
        · rename_i hk
          rw [Expr.size_congr fun u hu hid => h t (by simp) u.text ?_]
          rw [Token.names, hk]
          exact List.mem_map_of_mem (List.mem_filter.mpr ⟨hu, decide_eq_true hid⟩)
        · exact (Alike.bind .evaluate fun v => .pure (DataItem.value v)).eq _ h

theorem declaration {x x' : Reader α} (hx : Alike s s' x x') :
    Alike s s' (Assembly.readDeclaration x) (Assembly.readDeclaration x') :=
  .bind (.expect _) fun _ => .bind hx fun _ => .bind .finish fun _ => .pure _

theorem congruence : Congruence s s' fun _ => Alike s s' where
  pure := .pure
  bind := .bind
  comma := .comma
  more := .more
  finish := .finish
  register := .register
  operand := .operand
  indirection := .indirection
  label := .label
  immediate := .immediate
  bit := .bit

theorem instructionAll (m : Mnemonic) :
    Alike s s' (Instruction.readAll s m) (Instruction.readAll s' m) :=
  congruence.instructionAll m

theorem pseudo (op : PseudoOp) : Alike s s' (Pseudo.read s op) (Pseudo.read s' op) :=
  congruence.pseudo op

end Alike
end Reader
end BarrelAsm
