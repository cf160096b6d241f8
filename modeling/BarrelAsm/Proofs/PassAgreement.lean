import BarrelAsm.Proofs.Capacity
import BarrelAsm.Proofs.Layout
import BarrelAsm.Proofs.Token

/-! No check of the two passes ever fails, so that it does not matter what becomes of one that does,
and both passes come to each line in the same place. -/
namespace BarrelAsm

theorem Listing.lt_size_reserve (entries : Array ListingEntry) (n : Nat) :
    n < (reserve entries n).size := by
  unfold reserve
  split_ifs with h
  · exact h
  · rw [Array.size_append, Array.size_replicate]
    omega

theorem Listing.hasPlace (l : Listing) {n : Nat} (h : 1 ≤ n) : l.HasPlace n := by
  have hn : (n : Int) - 1 + l.offset = (n - 1 + l.offset : Nat) := by omega
  have hlt := lt_size_reserve l.entries (n - 1 + l.offset)
  unfold HasPlace
  dsimp only
  rw [hn, Int.toNat_natCast]
  exact ⟨by omega, by exact_mod_cast hlt⟩

theorem DataItem.size_nonneg_of_read {s : Scope} {ts rest : List Token} {item : DataItem}
    (h : DataItem.read s ts = (.ok item, rest)) : 0 ≤ item.size := by
  cases ts with
  | nil =>
    cases h
    decide
  | cons t ts =>
    unfold DataItem.read at h
    dsimp only at h
    split at h
    · cases h
    · rename_i u _
      split at h
      · cases h
        exact Int.natCast_nonneg _
      · cases hn : Expr.size s u.text with
        | error f =>
          rw [hn] at h
          cases h
        | ok n =>
          rw [hn] at h
          cases h
          exact Expr.size_nonneg hn
      · obtain ⟨v, mid, -, hp⟩ := Stateful.bind_ok h
        obtain ⟨rfl, -⟩ := Reader.pure_ok hp
        exact Int.one_nonneg

namespace Handler

section

variable {m : Type → Type} [Monad m] {α β : Type}

/-- A handler goes on where its first part ends. -/
theorem run_bind_of_eq [LawfulMonad m] {x : Handler m α} {f : α → Handler m β} {a b : Assembly}
    {v : α} (h : x.run.run a = pure (.ok v, b)) : (x >>= f).run.run a = (f v).run.run b := by
  rw [ExceptT.run_bind, StateT.run_bind, h, pure_bind]

/-- In every state the first handler ends as the second, which passes over failed checks. -/
def Agrees (x : Handler m α) (y : Handler Id α) : Prop :=
  ∀ a, x.run.run a = pure (Id.run (y.run.run a))

namespace Agrees

variable {x : Handler m α} {y : Handler Id α}

protected theorem pure (v : α) : Agrees (pure v : Handler m α) (pure v) := fun _ => rfl

protected theorem throw (f : Fault) : Agrees (throw f : Handler m α) (throw f) := fun _ => rfl

protected theorem lift (e : Except Fault α) : Agrees (liftM e : Handler m α) (liftM e) := by
  intro a
  cases e <;> rfl

protected theorem check [MonadTrap m] {condition : Prop} [Decidable condition] (h : condition)
    (t : Trap) :
    Agrees (check condition t : Handler m Unit) (check condition t) := by
  rw [check_of h, check_of h]
  exact .pure ()

protected theorem outcome [LawfulMonad m] {x : Handler m Unit} {y : Handler Id Unit}
    (h : Agrees x y) (a : Assembly) : x.outcome a = pure (Id.run (y.outcome a)) := by
  have hxa : x.run.run a = pure (y a) := h a
  rw [outcome_apply, Handler.outcome, hxa, pure_bind]
  rcases y a with ⟨f | ⟨⟩, b⟩ <;> rfl

variable [LawfulMonad m]

protected theorem get : Agrees (get : Handler m Assembly) get := by
  intro a
  change (Except.ok <$> (StateT.get : StateT Assembly m Assembly)).run a = pure (.ok a, a)
  rw [StateT.run_map]
  exact map_pure _ _

protected theorem modify (change : Assembly → Assembly) :
    Agrees (modify change : Handler m Unit) (modify change) := by
  intro a
  change (Except.ok <$> (StateT.modifyGet fun a => ((), change a) : StateT Assembly m Unit)).run a =
    pure (.ok (), change a)
  rw [StateT.run_map]
  exact map_pure _ _

protected theorem bind {f : α → Handler m β} {g : α → Handler Id β} (hx : Agrees x y)
    (hf : ∀ v, Agrees (f v) (g v)) : Agrees (x >>= f) (y >>= g) := by
  intro a
  have hxa : x.run.run a = pure (y a) := hx a
  change _ = pure ((y >>= g) a)
  rw [ExceptT.run_bind, StateT.run_bind, hxa, pure_bind, Stateful.bind_apply y g a]
  rcases y a with ⟨e | v, b⟩
  · rfl
  · exact hf v b

protected theorem throw_bind (e : Fault) (f : α → Handler m β) (g : α → Handler Id β) :
    Agrees (throw e >>= f) (throw e >>= g) := by
  intro a
  simp

/-- What comes behind a reader may rely on what it has read. -/
protected theorem read_bind {r : Reader α} {ts : List Token} {f : α × List Token → Handler m β}
    {g : α × List Token → Handler Id β}
    (h : ∀ v rest, r ts = (.ok v, rest) → Agrees (f (v, rest)) (g (v, rest))) :
    Agrees (read r ts >>= f) (read r ts >>= g) := by
  unfold Handler.read
  rcases hr : r ts with ⟨e | v, rest⟩
  · exact .throw_bind e f g
  · dsimp only
    rw [pure_bind, pure_bind]
    exact h v rest hr

protected theorem guard {c : Prop} [Decidable c] (e : Fault) {f : PUnit → Handler m α}
    {g : PUnit → Handler Id α} (h : Agrees (f ⟨⟩) (g ⟨⟩)) :
    Agrees (if c then throw e >>= f else f ⟨⟩) (if c then throw e >>= g else g ⟨⟩) := by
  split_ifs
  · exact .throw_bind e f g
  · exact h

protected theorem insertSymbol (name : Text) (sym : Symbol) :
    Agrees (insertSymbol name sym : Handler m Unit) (insertSymbol name sym) :=
  .bind .get fun _ => .bind (.lift _) fun _ => .modify _

protected theorem allocRegister (name : Text) (value : Int) :
    Agrees (allocRegister name value : Handler m Nat) (allocRegister name value) :=
  .bind .get fun _ => .guard _ <| .bind (.insertSymbol _ _) fun _ =>
    .bind (.modify _) fun _ => .bind (.modify _) fun _ => .pure _

protected theorem insertSymbols (es : List (Text × Symbol)) :
    Agrees (insertSymbols es : Handler m Unit) (insertSymbols es) := by
  induction es with
  | nil => exact .pure ()
  | cons e es ih => exact .bind (.insertSymbol _ _) fun _ => ih

protected theorem reset (constants : Constants) (lines : Nat) :
    Agrees (reset constants lines : Handler m Unit) (reset constants lines) :=
  .bind (.modify _) fun _ => .insertSymbols _

protected theorem defineLabel (name : Text) :
    Agrees (defineLabel name : Handler m Unit) (defineLabel name) :=
  .bind .get fun _ => .guard _ <| .insertSymbol _ _

protected theorem defineLabels (ls : List Text) :
    Agrees (defineLabels ls : Handler m Unit) (defineLabels ls) := by
  induction ls with
  | nil => exact .pure ()
  | cons l ls ih => exact .bind (.defineLabel l) fun _ => ih

protected theorem openProcess (ts : List Token) :
    Agrees (openProcess ts : Handler m Unit) (openProcess ts) :=
  .bind .get fun _ => .guard _ <|
    .read_bind fun _ _ _ => .bind .get fun _ => .bind .get fun _ => .bind (.lift _) fun _ =>
      .bind (.modify _) fun _ => .modify _

protected theorem closeProcess (ts : List Token) :
    Agrees (closeProcess ts : Handler m Unit) (closeProcess ts) :=
  .bind .get fun _ => .guard _ <| .read_bind fun _ _ _ => .modify _

protected theorem scratchFor (line : Line) (p : Pseudo) :
    Agrees (scratchFor line p : Handler m Register) (scratchFor line p) := by
  unfold Handler.scratchFor
  split_ifs
  · refine .bind .get fun a => .bind .get fun b => ?_
    cases b.symbols.get? (Assembly.scratchName a.process) with
    | some sym => exact .pure _
    | none => exact .bind (.allocRegister _ _) fun _ => .bind (.modify _) fun _ => .pure _
  · exact .pure _

end Agrees
end

/-! The handlers of the passes, step by step. All of them agree where lines are numbered from 1 on
and tokens are those of a line. -/

section

variable {m : Type → Type} [Monad m] [LawfulMonad m] [MonadTrap m] {line : Line}

namespace Agrees

protected theorem list (h : 1 ≤ line.number) (location : Int) (payload : Text) :
    Agrees (list line location payload : Handler m Unit) (list line location payload) :=
  .bind .get fun a => .bind (.check (a.listing.hasPlace h) _) fun _ => .modify _

protected theorem listWords (h : 1 ≤ line.number) (insert : Bool) (text : Text) (ws : List Word) :
    Agrees (listWords insert line text ws : Handler m Unit) (listWords insert line text ws) := by
  induction ws generalizing text with
  | nil => exact .pure ()
  | cons w ws ih =>
    exact .bind .get fun a => .bind (.check (a.listing.hasPlace h) _) fun _ =>
      .bind (.modify _) fun _ => .bind (.modify _) fun _ => ih _

protected theorem emit (h : 1 ≤ line.number) (insert : Bool) (ws : List Word) :
    Agrees (emit insert line ws : Handler m Unit) (emit insert line ws) :=
  .bind (.modify _) fun _ => .listWords h insert _ ws

protected theorem declareConst (h : 1 ≤ line.number) (ts : List Token) :
    Agrees (declareConst line ts : Handler m Unit) (declareConst line ts) :=
  .bind .get fun _ => .guard _ <|
    .read_bind fun _ _ _ => .bind .get fun _ => .read_bind fun _ _ _ => .read_bind fun _ _ _ =>
      .bind (.insertSymbol _ _) fun _ => .list h _ _

protected theorem declareRegister (h : 1 ≤ line.number) (ts : List Token) :
    Agrees (declareRegister line ts : Handler m Unit) (declareRegister line ts) :=
  .read_bind fun _ _ _ => .bind .get fun _ => .read_bind fun _ _ _ => .read_bind fun _ _ _ =>
    .bind .get fun _ => .bind (.allocRegister _ _) fun _ => .list h _ _

protected theorem declareData (h : 1 ≤ line.number) (ts : List Token) :
    Agrees (declareData line ts : Handler m Unit) (declareData line ts) :=
  .read_bind fun _ _ _ => .bind .get fun _ => .read_bind fun _ _ hitem =>
    .bind (.check (DataItem.size_nonneg_of_read hitem) _) fun _ => .read_bind fun _ _ _ =>
      .bind .get fun _ => .bind .get fun _ => .bind (.insertSymbol _ _) fun _ =>
        .bind (.modify _) fun _ => .bind (.modify _) fun _ => .list h _ _

protected theorem declare (h : 1 ≤ line.number) {ts : List Token} (hts : ∀ t ∈ ts, t.Lawful) :
    Agrees (declare line ts : Handler m Unit) (declare line ts) := by
  cases ts with
  | nil => exact .pure ()
  | cons t ts =>
    have ht : t.Lawful := hts t List.mem_cons_self
    unfold Handler.declare
    dsimp only
    cases hk : t.kind with
    | regDecl => exact .declareRegister h ts
    | constDecl => exact .declareConst h ts
    | dataDecl => exact .declareData h ts
    | process => exact .openProcess ts
    | endProcess => exact .closeProcess ts
    | instruction => exact .modify _
    | pseudo =>
      rw [Token.Lawful, hk] at ht
      exact .bind (.check ht _) fun _ => .modify _
    | _ => exact .throw _

protected theorem firstPass (h : 1 ≤ line.number) :
    Agrees (firstPass line : Handler m Unit) (firstPass line) := by
  refine .bind (.modify _) fun _ => ?_
  cases hs : Statement.ofLine? line.text with
  | none => exact .list h _ _
  | some s => exact .bind (.defineLabels _) fun _ => .declare h (Statement.lawful_body hs)

protected theorem encode (h : 1 ≤ line.number) (op : Mnemonic) (ts : List Token) :
    Agrees (encode line op ts : Handler m Unit) (encode line op ts) :=
  .bind .get fun _ => .read_bind fun _ _ _ => .emit h _ _

/-- The words reserved by name are those of the operands read. -/
protected theorem expand (h : 1 ≤ line.number) (op : PseudoOp) (ts : List Token) :
    Agrees (expand line op ts : Handler m Unit) (expand line op ts) := by
  refine .bind .get fun a => .read_bind fun p _ hp => .bind (.scratchFor line p) fun r =>
    .read_bind fun _ _ _ => .bind (.check ?_ _) fun _ => .emit h _ _
  rw [Pseudo.length_words, Pseudo.op_of_read hp]

protected theorem reopenProcess (h : 1 ≤ line.number) (ts : List Token) :
    Agrees (reopenProcess line ts : Handler m Unit) (reopenProcess line ts) :=
  .bind .get fun _ => .guard _ <|
    .read_bind fun _ _ _ => .bind .get fun _ => .bind (.list h _ _) fun _ => .modify _

protected theorem recloseProcess (h : 1 ≤ line.number) (ts : List Token) :
    Agrees (recloseProcess line ts : Handler m Unit) (recloseProcess line ts) :=
  .bind .get fun _ => .guard _ <| .read_bind fun _ _ _ => .bind (.list h _ _) fun _ => .modify _

protected theorem generate (h : 1 ≤ line.number) {ts : List Token} (hts : ∀ t ∈ ts, t.Lawful) :
    Agrees (generate line ts : Handler m Unit) (generate line ts) := by
  cases ts with
  | nil => exact .bind .get fun _ => .list h _ _
  | cons t ts =>
    have ht : t.Lawful := hts t List.mem_cons_self
    unfold Handler.generate
    dsimp only
    cases hk : t.kind with
    | regDecl | constDecl | dataDecl => exact .pure ()
    | process => exact .reopenProcess h ts
    | endProcess => exact .recloseProcess h ts
    | instruction =>
      dsimp only
      cases Mnemonic.ofName? t.text with
      | some op => exact .encode h op ts
      | none => exact .throw _
    | pseudo =>
      rw [Token.Lawful, hk] at ht
      obtain ⟨op, ho⟩ := Option.isSome_iff_exists.mp ht
      dsimp only
      rw [ho]
      exact .expand h op ts
    | _ => exact .throw _

protected theorem generateLine (h : 1 ≤ line.number) :
    Agrees (generateLine line : Handler m Unit) (generateLine line) := by
  unfold Handler.generateLine
  cases hs : Statement.ofLine? line.text with
  | none => exact .pure ()
  | some s => exact .generate h (Statement.lawful_body hs)

end Agrees

theorem run_checkAddress {a : Assembly} (ha : a.addresses[line.number - 1]? = some a.pc) :
    (checkAddress line : Handler m Unit).run.run a = pure (.ok (), a) := by
  rw [checkAddress, run_bind_of_eq (Agrees.get a), ha]
  dsimp only
  rw [check_of rfl]
  rfl

/-- The second pass goes on to the statement of a line that it comes to where the first pass did. -/
theorem run_secondPass {a : Assembly} (ha : a.addresses[line.number - 1]? = some a.pc) :
    (secondPass line : Handler m Unit).run.run a =
      (generateLine line : Handler m Unit).run.run (a.record (.line 2 line)) := by
  rw [secondPass, run_bind_of_eq (Agrees.modify _ a),
    run_bind_of_eq (run_checkAddress (a := a.record (.line 2 line)) ha)]

theorem secondPass_outcome (h : 1 ≤ line.number) {a : Assembly}
    (ha : a.addresses[line.number - 1]? = some a.pc) :
    (secondPass line : Handler m Unit).outcome a = pure (Assembly.secondPass line a) := by
  have houtcome := (Agrees.generateLine (m := m) h).outcome (a.record (.line 2 line))
  unfold Handler.outcome at houtcome
  rw [← run_secondPass ha, ← run_secondPass ha] at houtcome
  exact houtcome

end
end Handler

section

variable {m : Type → Type} [Monad m] [LawfulMonad m]

/-- A run is the plain one if its steps are, as long as what they rely on is kept. -/
theorem runLinesM_eq {step : Line → Assembly → m Outcome} {plain : Line → Assembly → Outcome}
    {P : List Line → Assembly → Prop}
    (hstep : ∀ l ls a, P (l :: ls) a →
      step l a = pure (plain l a) ∧ ∀ b, plain l a = (b, none) → P ls b)
    {lines : List Line} {a : Assembly} (ha : P lines a) :
    runLinesM step lines a = pure (runLines plain lines a) := by
  induction lines generalizing a with
  | nil => rfl
  | cons l ls ih =>
    obtain ⟨hl, hnext⟩ := hstep l ls a ha
    rw [runLinesM, hl, pure_bind, runLines_cons]
    rcases hp : plain l a with ⟨b, _ | f⟩
    · exact ih (hnext b hp)
    · rfl

theorem mapM_eq_pure {α β : Type} {f : α → m β} {g : α → β} {xs : List α}
    (h : ∀ x ∈ xs, f x = pure (g x)) : xs.mapM f = pure (xs.map g) := by
  induction xs with
  | nil => rfl
  | cons x xs ih =>
    rw [List.mapM_cons, h x List.mem_cons_self, pure_bind,
      ih fun y hy => h y (List.mem_cons_of_mem _ hy), pure_bind]
    rfl

end

theorem Process.locationAtM_eq {m : Type → Type} [Monad m] [MonadTrap m] {p : Process}
    (h : p.slots ≠ []) (step : Nat) :
    (p.locationAtM step : m Int) = pure (p.locationAt step) := by
  have hlt : step % p.slots.length < p.slots.length :=
    Nat.mod_lt _ (List.length_pos_of_ne_nil h)
  unfold locationAt locationAtM
  rw [List.getElem?_eq_getElem hlt]
  rfl

namespace Registry

variable {m : Type → Type} [Monad m] [LawfulMonad m] [MonadTrap m] (r : Registry)

theorem cycleLengthM_eq : (r.cycleLengthM : m Int) = pure r.cycleLength := by
  rw [cycleLength, cycleLengthM, cycleLengthM, Arith.lcmM_eq_foldl, Arith.lcmM_eq_foldl]
  rfl

theorem checkCapacityM_eq : (r.checkCapacityM : m (Except Fault Unit)) = pure r.checkCapacity := by
  rw [checkCapacityM, cycleLengthM_eq, pure_bind, checkCapacity_eq]

variable {r}

theorem sequenceM_eq (h : r.WellFormed) : (r.sequenceM : m (List Int)) = pure r.sequence := by
  have hround : ∀ step ∈ List.range r.cycleLength.toNat,
      (r.processes.mapM (·.locationAtM step) : m (List Int)) =
        pure (r.processes.map (·.locationAt step)) :=
    fun step _ => mapM_eq_pure fun p hp => Process.locationAtM_eq (h.slots p hp) step
  rw [sequenceM, cycleLengthM_eq, pure_bind, mapM_eq_pure hround, pure_bind, sequence_eq_flatMap,
    List.flatMap_def]

end Registry

theorem Line.one_le_number {texts : List Text} {line : Line} (h : line ∈ Line.ofTexts texts) :
    1 ≤ line.number := by
  obtain ⟨i, hi⟩ := List.getElem?_of_mem h
  rw [Line.numbered_ofTexts texts i line hi]
  omega

namespace Assembly

variable {a b : Assembly} {line : Line} {lines : List Line}

theorem Declared.addresses {ts : List Token} (h : Declared a line ts b) :
    b.addresses = a.addresses := by
  cases h <;> rfl

theorem Generated.addresses {ts : List Token} (h : Generated a line ts b) :
    b.addresses = a.addresses := by
  cases h with
  | pseudo hk ho hp hs =>
    have hsame := congrArg Assembly.addresses (scratchFor_eq hs)
    exact hsame
  | _ => rfl

theorem firstPass_addresses (h : firstPass line a = (b, none)) :
    b.addresses = a.addresses.push a.pc := by
  rcases firstPass_ok h with ⟨-, rfl⟩ | ⟨s, c, -, hc, hb⟩
  · rfl
  · rw [hb.addresses, defineLabels_eq hc]
    rfl

theorem secondPass_addresses (h : secondPass line a = (b, none)) : b.addresses = a.addresses := by
  rcases secondPass_ok h with ⟨-, rfl⟩ | ⟨s, -, hb⟩
  · rfl
  · exact hb.addresses

/-- The first pass notes where each line starts. -/
theorem addresses_of_firstPass {constants : Constants} {n : Nat}
    (h : runLines firstPass lines (initial constants n) = (a, none)) :
    a.addresses.size = lines.length ∧
      ∀ k < lines.length, a.addresses[k]? = some (Source.size (lines.take k)) := by
  refine runLines_induction (P := fun pre x => x.addresses.size = pre.length ∧
    ∀ k < pre.length, x.addresses[k]? = some (Source.size (pre.take k))) h ⟨rfl, by simp⟩ ?_
  intro pre line c d _ hc ⟨hsize, haddr⟩ hd
  rw [firstPass_addresses hd, (firstPass_place hc).1]
  refine ⟨by simp [hsize], fun k hk => ?_⟩
  rw [Array.getElem?_push, hsize]
  split_ifs with heq
  · rw [heq, List.take_left]
  · rw [List.length_append, List.length_singleton] at hk
    have hlt : k < pre.length := by omega
    rw [haddr k hlt, List.take_append_of_le_length hlt.le]

/-- The second pass comes to the lines that are left where the first pass did. -/
def Aligned (lines : List Line) (a : Assembly) : Prop :=
  ∀ n l, lines[n]? = some l → 1 ≤ l.number ∧
    a.addresses[l.number - 1]? = some (a.pc + Source.size (lines.take n))

theorem aligned_restart {constants : Constants} {texts : List Text} {n : Nat}
    (h : runLines firstPass (Line.ofTexts texts) (initial constants n) = (a, none)) :
    Aligned (Line.ofTexts texts) a.restart := by
  intro k l hl
  have hlt : k < (Line.ofTexts texts).length := (List.getElem?_eq_some_iff.mp hl).1
  have hnumber := Line.numbered_ofTexts texts k l hl
  refine ⟨by omega, ?_⟩
  rw [hnumber, Nat.add_sub_cancel]
  change a.addresses[k]? = some (0 + _)
  rw [Nat.zero_add]
  exact (addresses_of_firstPass h).2 k hlt

theorem Aligned.tail {l : Line} {ls : List Line} (h : Aligned (l :: ls) a)
    (hb : secondPass l a = (b, none)) : Aligned ls b := by
  intro n k hk
  obtain ⟨hnumber, haddr⟩ := h (n + 1) k hk
  refine ⟨hnumber, ?_⟩
  rw [secondPass_addresses hb, haddr, (secondPass_moves hb).1]
  simp [Nat.add_assoc]

variable {m : Type → Type} [Monad m] [LawfulMonad m] [MonadTrap m]

theorem runLinesM_firstPass (texts : List Text) (a : Assembly) :
    runLinesM (fun l => (Handler.firstPass l : Handler m Unit).outcome) (Line.ofTexts texts) a =
      pure (runLines firstPass (Line.ofTexts texts) a) := by
  refine runLinesM_eq (P := fun ls _ => ∀ l ∈ ls, 1 ≤ l.number) ?_ fun l => Line.one_le_number
  intro l ls a hn
  obtain ⟨hl, hls⟩ := List.forall_mem_cons.mp hn
  exact ⟨(Handler.Agrees.firstPass hl).outcome a, fun _ _ => hls⟩

theorem runLinesM_secondPass (h : Aligned lines a) :
    runLinesM (fun l => (Handler.secondPass l : Handler m Unit).outcome) lines a =
      pure (runLines secondPass lines a) := by
  refine runLinesM_eq (P := Aligned) ?_ h
  intro l ls a h
  obtain ⟨hnumber, haddr⟩ := h 0 l rfl
  exact ⟨Handler.secondPass_outcome hnumber haddr, fun _ hb => h.tail hb⟩

theorem finishM_eq (h : a.processes.WellFormed) :
    (a.finishM : m (Assembly × Except Diagnostic Program)) = pure a.finish := by
  have hprogram : (a.programM : m Program) = pure a.program := by
    rw [program, programM, programM, Registry.sequenceM_eq h, Registry.sequenceM_eq h, pure_bind]
    rfl
  rw [finishM, Registry.checkCapacityM_eq, pure_bind, finish_eq]
  cases a.processes.checkCapacity with
  | error f => rfl
  | ok _ =>
    dsimp only
    rw [hprogram, pure_bind]

/-- It does not matter what becomes of a failed check, because none fails. -/
theorem assembleM_eq_run (constants : Constants) (texts : List Text) :
    (({} : Assembly).assembleM constants (Line.ofTexts texts) :
      m (Assembly × Except Diagnostic Program)) = pure (run constants (Line.ofTexts texts)) := by
  have hreset := (Handler.Agrees.reset (m := m) constants (Line.ofTexts texts).length).outcome {}
  have hbegin : (initial constants (Line.ofTexts texts).length).beginPass =
      initial constants (Line.ofTexts texts).length := rfl
  rw [assembleM, hreset, reset_outcome, pure_bind]
  dsimp only
  rw [passesM, hbegin, runLinesM_firstPass, pure_bind, run_eq]
  rcases hone : runLines firstPass (Line.ofTexts texts)
    (initial constants (Line.ofTexts texts).length) with ⟨a, _ | ⟨l, f⟩⟩
  · dsimp only
    cases checkProcessCount a.processes with
    | error f => rfl
    | ok _ =>
      dsimp only
      rw [runLinesM_secondPass (aligned_restart hone), pure_bind]
      rcases htwo : runLines secondPass (Line.ofTexts texts) a.restart with ⟨b, _ | ⟨l, f⟩⟩
      · refine finishM_eq ?_
        rw [secondPass_processes htwo]
        exact (firstPass_wellFormed hone).finalize
      · rfl
  · rfl

end Assembly

namespace Checked

/-- The assembly of lines, which ends at a failed check. -/
def run (constants : Constants) (lines : List Line) :
    Except Trap (Assembly × Except Diagnostic Program) :=
  ({} : Assembly).assembleM constants lines

end Checked

/-- A run that makes every check fails none of them and ends like the run that makes none. In
particular the second pass comes to a line with the program counter and in the process that the
first pass had there. -/
theorem passes_agree (constants : Constants) (texts : List Text) :
    Checked.run constants (Line.ofTexts texts) =
        .ok (Assembly.run constants (Line.ofTexts texts)) ∧
      ∀ a b pre line,
        runLines Assembly.firstPass (Line.ofTexts texts)
          (Assembly.initial constants (Line.ofTexts texts).length) = (a, none) →
        pre ++ [line] <+: Line.ofTexts texts →
        runLines Assembly.secondPass pre a.restart = (b, none) →
        ∃ c, runLines Assembly.firstPass pre
            (Assembly.initial constants (Line.ofTexts texts).length) = (c, none) ∧
          b.pc = c.pc ∧ b.process = c.process := by
  refine ⟨Assembly.assembleM_eq_run constants texts, ?_⟩
  intro a b pre line hone hlines htwo
  obtain ⟨c, hc⟩ := runLines_prefix_ok ((List.prefix_append pre [line]).trans hlines) hone
  obtain ⟨hcpc, hcp⟩ := Assembly.firstPass_place hc
  obtain ⟨hbpc, hbp⟩ := Assembly.secondPass_place htwo
  exact ⟨c, hc, by rw [hbpc, hcpc], by rw [hbp, hcp]⟩

theorem passes_agree_sample :
    ∃ c, runLines Assembly.firstPass ((Line.ofTexts Source.sample).take 14)
        (Assembly.initial {} 26) = (c, none) ∧
      (runLines Assembly.secondPass ((Line.ofTexts Source.sample).take 14)
        (runLines Assembly.firstPass (Line.ofTexts Source.sample)
          (Assembly.initial {} 26)).1.restart).1.pc = c.pc ∧
      (runLines Assembly.secondPass ((Line.ofTexts Source.sample).take 14)
        (runLines Assembly.firstPass (Line.ofTexts Source.sample)
          (Assembly.initial {} 26)).1.restart).1.process = c.process := by
  obtain ⟨a, program, h⟩ := Source.run_sample
  obtain ⟨one, two, hone, -, htwo, -⟩ := Assembly.run_ok h
  obtain ⟨b, hb⟩ := runLines_prefix_ok (List.take_prefix 14 _) htwo
  have hp : (Line.ofTexts Source.sample).take 14 ++ [⟨15, "jmp again"⟩] <+:
      Line.ofTexts Source.sample := by decide +kernel
  change runLines _ _ (Assembly.initial {} 26) = (one, none) at hone
  rw [hone, hb]
  exact (passes_agree {} Source.sample).2 one b _ _ hone hp hb

end BarrelAsm
