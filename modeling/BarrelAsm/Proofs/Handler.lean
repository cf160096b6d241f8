import BarrelAsm.Assembler
import BarrelAsm.Proofs.Reader

/-! What handlers make of a state when failed checks are passed over. Each one is brought into a
form that says what it finds out before it changes anything, and how it changes the state then. -/
namespace BarrelAsm

/-- Change the state by what was found out, or leave it as it is. -/
def Outcome.update {α : Type} (a : Assembly) (found : Except Fault α)
    (change : Assembly → α → Assembly) : Outcome :=
  match found with
  | .ok x => (change a x, none)
  | .error f => (a, some f)

theorem Outcome.update_ok {α : Type} {a b : Assembly} {found : Except Fault α}
    {change : Assembly → α → Assembly} (h : Outcome.update a found change = (b, none)) :
    ∃ x, found = .ok x ∧ b = change a x := by
  cases found with
  | error f => cases h
  | ok x => exact ⟨x, rfl, (Prod.mk.inj h).1.symm⟩

theorem Outcome.update_fault {α : Type} {a b : Assembly} {found : Except Fault α} {f : Fault}
    {change : Assembly → α → Assembly} (h : Outcome.update a found change = (b, some f)) :
    b = a ∧ found = .error f := by
  cases found with
  | ok x => cases h
  | error g =>
    cases h
    exact ⟨rfl, rfl⟩

/-- List the words of an expansion from an address on, the first one with this text. -/
def Listing.insertWords (line : Nat) : Nat → Text → List Word → Listing → Listing
  | _, _, [], l => l
  | address, text, w :: ws, l =>
    insertWords line (address + 1) continuation ws (l.insertLine line address w.text text)

namespace Handler

variable {α β : Type}

theorem outcome_apply (h : Handler Id Unit) (a : Assembly) :
    Id.run (h.outcome a) = match h a with
      | (.ok (), b) => (b, none)
      | (.error f, b) => (b, some f) := rfl

@[simp] theorem check_eq (condition : Prop) [Decidable condition] (t : Trap) :
    (check condition t : Handler Id Unit) = pure () := by
  unfold check
  split <;> rfl

@[simp] theorem trap_eq (t : Trap) : (MonadTrap.trap t : Handler Id Unit) = pure () := rfl

theorem get_bind (f : Assembly → Handler Id β) (a : Assembly) : (get >>= f) a = f a a := rfl

theorem modify_bind (change : Assembly → Assembly) (f : Unit → Handler Id β) (a : Assembly) :
    (modify change >>= f) a = f () (change a) := rfl

theorem throw_bind (f : Fault) (g : α → Handler Id β) (a : Assembly) :
    (throw f >>= g) a = (.error f, a) := rfl

theorem read_bind (r : Reader α) (ts : List Token) (g : α × List Token → Handler Id β)
    (a : Assembly) :
    (read r ts >>= g) a = match r ts with
      | (.ok x, rest) => g (x, rest) a
      | (.error f, _) => (.error f, a) := by
  rw [Stateful.bind_apply, read]
  rcases r ts with ⟨f | x, rest⟩ <;> rfl

theorem insertSymbol_apply (name : Text) (sym : Symbol) (a : Assembly) :
    (insertSymbol name sym : Handler Id Unit) a = match a.symbols.insert name sym with
      | .ok symbols => (.ok (), { a with symbols })
      | .error f => (.error f, a) := by
  rw [insertSymbol, get_bind, Stateful.bind_apply]
  cases a.symbols.insert name sym <;> rfl

theorem insertSymbol_bind (name : Text) (sym : Symbol) (g : Unit → Handler Id β) (a : Assembly) :
    (insertSymbol name sym >>= g) a = match a.symbols.insert name sym with
      | .ok symbols => g () { a with symbols }
      | .error f => (.error f, a) := by
  rw [Stateful.bind_apply, insertSymbol_apply]
  cases a.symbols.insert name sym <;> rfl

theorem list_eq (line : Line) (location : Int) (payload : Text) :
    (list line location payload : Handler Id Unit) = modify (·.list line location payload) := by
  funext a
  unfold list
  simp only [check_eq, pure_bind]
  rfl

end Handler

namespace Assembly

variable (a : Assembly) (line : Line) (ts : List Token)

/-- The symbols with a name for the next register. -/
def nameRegister (name : Text) (value : Int) : Except Fault SymbolTable :=
  if registerLimit ≤ a.registerNext then .error (.outOfRange (a.registerNext + 1) registerLimit)
  else a.symbols.insert name ⟨.register, value, 1, a.registerNext⟩

/-- Add the next register, whose name is among these symbols. -/
def addRegister (symbols : SymbolTable) (value : Int) : Assembly :=
  { a with
    symbols
    registerNext := a.registerNext + 1
    registers := a.registers.push (UInt16.ofInt value) }

/-- Add a data item, whose name is among these symbols. -/
def addData (symbols : SymbolTable) (bytes : Text) : Assembly :=
  { a with
    symbols
    dataNext := a.dataNext + bytes.length
    data := a.data ++ bytes.toArray }

/-- Emit the word of an instruction. -/
def emit (w : Word) : Assembly :=
  { a with
    opcodes := a.opcodes.push ⟨line.number, a.pc, [w], line.text⟩
    pc := a.pc + 1 }.list line a.pc w.text

/-- Emit the words of an expansion. -/
def emitExpansion (ws : List Word) : Assembly :=
  { a with
    opcodes := a.opcodes.push ⟨line.number, a.pc, ws, line.text⟩
    listing := a.listing.insertWords line.number a.pc line.text ws
    pc := a.pc + ws.length }

/-- Read a name and what `body` reads after it, up to the end of the line. -/
def readDeclaration {α : Type} (body : Reader α) : Reader (Text × α) := do
  let name ← Reader.expect [.identifier]
  let x ← body
  Reader.finish
  return (name.text, x)

end Assembly

namespace Handler

variable {α β : Type} (a : Assembly)

theorem allocRegister_bind (name : Text) (value : Int) (g : Nat → Handler Id β) :
    (allocRegister name value >>= g) a = match a.nameRegister name value with
      | .ok symbols => g a.registerNext (a.addRegister symbols value)
      | .error f => (.error f, a) := by
  rw [Stateful.bind_apply, allocRegister, get_bind, Assembly.nameRegister]
  dsimp only
  split_ifs with h
  · rfl
  · rw [insertSymbol_bind]
    cases a.symbols.insert name ⟨.register, value, 1, a.registerNext⟩ <;> rfl

/-- A name, a body and the end of the line are read before anything else is done. -/
theorem readDeclaration_bind (body : Assembly → Reader α) (ts : List Token)
    (g : Text → α → Handler Id β) :
    (do
      let name ← read (Reader.expect [.identifier]) ts
      let b ← get
      let x ← read (body b) name.2
      let _ ← read Reader.finish x.2
      g name.1.text x.1 : Handler Id β) a =
      match (Assembly.readDeclaration (body a) ts).1 with
      | .ok (name, x) => g name x a
      | .error f => (.error f, a) := by
  rw [read_bind, Assembly.readDeclaration, Stateful.bind_apply]
  rcases Reader.expect [.identifier] ts with ⟨f | name, mid⟩
  · rfl
  · dsimp only
    rw [get_bind, read_bind, Stateful.bind_apply]
    rcases body a mid with ⟨f | x, rest⟩
    · rfl
    · dsimp only
      rw [read_bind, Stateful.bind_apply]
      rcases Reader.finish rest with ⟨f | ⟨⟩, rest⟩ <;> rfl

end Handler

namespace Assembly

variable (a : Assembly) (line : Line) (ts : List Token)

def declareConst : Outcome := Id.run ((Handler.declareConst line ts).outcome a)

def declareRegister : Outcome := Id.run ((Handler.declareRegister line ts).outcome a)

def declareData : Outcome := Id.run ((Handler.declareData line ts).outcome a)

theorem declareConst_eq : a.declareConst line ts =
    .update a (do
        if a.process.isSome then throw (.misplaced ".const")
        let (name, value) ← (readDeclaration (Expr.immediate a.scope) ts).1
        return (value, ← a.symbols.insert name ⟨.const, value, 0, 0⟩))
      fun a (value, symbols) => { a with symbols }.list line 0 (Text.hex16 value) := by
  rw [declareConst, Handler.outcome_apply, Handler.declareConst, Handler.get_bind]
  simp only [Handler.list_eq]
  by_cases hp : a.process.isSome
  · rw [if_pos hp, if_pos hp]
    rfl
  · rw [if_neg hp, if_neg hp]
    rw [Handler.readDeclaration_bind a (fun b => Expr.immediate b.scope) ts fun name value => do
      Handler.insertSymbol name ⟨.const, value, 0, 0⟩
      modify (·.list line 0 (Text.hex16 value))]
    rcases (readDeclaration (Expr.immediate a.scope) ts).1 with f | ⟨name, value⟩
    · rfl
    · dsimp only
      rw [Handler.insertSymbol_bind]
      change _ = Outcome.update a (a.symbols.insert name ⟨.const, value, 0, 0⟩ >>= _) _
      cases a.symbols.insert name ⟨.const, value, 0, 0⟩ <;> rfl

theorem declareRegister_eq : a.declareRegister line ts =
    .update a (do
        let (name, value) ← (readDeclaration (Expr.optional a.scope) ts).1
        return (value, ← a.nameRegister (a.qualify name) value))
      fun a (value, symbols) =>
        let location := a.registerNext
        (a.addRegister symbols value).list line location (Text.hex16 value) := by
  rw [declareRegister, Handler.outcome_apply, Handler.declareRegister]
  simp only [Handler.list_eq]
  rw [Handler.readDeclaration_bind a (fun b => Expr.optional b.scope) ts fun name value => do
    let b ← get
    let location ← Handler.allocRegister (b.qualify name) value
    modify (·.list line location (Text.hex16 value))]
  rcases (readDeclaration (Expr.optional a.scope) ts).1 with f | ⟨name, value⟩
  · rfl
  · dsimp only
    rw [Handler.get_bind, Handler.allocRegister_bind]
    change _ = Outcome.update a (a.nameRegister (a.qualify name) value >>= _) _
    cases a.nameRegister (a.qualify name) value <;> rfl

theorem declareData_eq : a.declareData line ts =
    .update a (do
        let (name, item) ← (readDeclaration (DataItem.read a.scope) ts).1
        return (item, ← a.symbols.insert (a.qualify name)
          ⟨.data, item.firstValue, item.size, a.dataNext⟩))
      fun a (item, symbols) =>
        let location := a.dataNext
        (a.addData symbols item.bytes).list line location (Text.hex16 item.firstValue) := by
  rw [declareData, Handler.outcome_apply, Handler.declareData]
  simp only [Handler.list_eq, Handler.check_eq, pure_bind]
  rw [Handler.readDeclaration_bind a (fun b => DataItem.read b.scope) ts fun name item => do
    let location := (← get).dataNext
    Handler.insertSymbol ((← get).qualify name) ⟨.data, item.firstValue, item.size, location⟩
    modify fun a => { a with dataNext := a.dataNext + item.bytes.length }
    modify fun a => { a with data := a.data ++ item.bytes.toArray }
    modify (·.list line location (Text.hex16 item.firstValue))]
  rcases (readDeclaration (DataItem.read a.scope) ts).1 with f | ⟨name, item⟩
  · rfl
  · dsimp only
    rw [Handler.get_bind, Handler.get_bind, Handler.insertSymbol_bind]
    change _ = Outcome.update a (a.symbols.insert (a.qualify name)
      ⟨.data, item.firstValue, item.size, a.dataNext⟩ >>= _) _
    cases a.symbols.insert (a.qualify name) ⟨.data, item.firstValue, item.size, a.dataNext⟩ <;> rfl

def defineLabel (name : Text) : Outcome := Id.run ((Handler.defineLabel name).outcome a)

def defineLabels (ls : List Text) (a : Assembly) : Outcome :=
  Id.run ((Handler.defineLabels ls).outcome a)

theorem defineLabel_eq (name : Text) : a.defineLabel name =
    .update a (do
        if a.process.isNone then throw (.misplaced name)
        a.symbols.insert (a.qualify name) ⟨.label, a.pc, 1, a.pc⟩)
      fun a symbols => { a with symbols } := by
  rw [defineLabel, Handler.outcome_apply, Handler.defineLabel, Handler.get_bind]
  by_cases hp : a.process.isNone
  · rw [if_pos hp, if_pos hp]
    rfl
  · rw [if_neg hp, if_neg hp]
    dsimp only
    rw [Handler.insertSymbol_apply]
    cases a.symbols.insert (a.qualify name) ⟨.label, a.pc, 1, a.pc⟩ <;> rfl

theorem defineLabels_nil : defineLabels [] a = (a, none) := rfl

theorem defineLabels_cons (l : Text) (ls : List Text) :
    defineLabels (l :: ls) a = match a.defineLabel l with
      | (a, none) => defineLabels ls a
      | (a, some f) => (a, some f) := by
  unfold defineLabels defineLabel
  rw [Handler.outcome_apply, Handler.outcome_apply, Handler.defineLabels, Stateful.bind_apply]
  rcases Handler.defineLabel l a with ⟨f | ⟨⟩, b⟩ <;> rfl

def openProcess : Outcome := Id.run ((Handler.openProcess ts).outcome a)

def closeProcess : Outcome := Id.run ((Handler.closeProcess ts).outcome a)

theorem openProcess_eq : a.openProcess ts =
    .update a (do
        if a.process.isSome then throw (.misplaced "process")
        let name ← (Statement.processName ts).1
        return (name, ← a.processes.register name a.pc))
      fun a (name, processes) => { a with processes, process := some name } := by
  rw [openProcess, Handler.outcome_apply, Handler.openProcess, Handler.get_bind]
  by_cases hp : a.process.isSome
  · rw [if_pos hp, if_pos hp]
    rfl
  · rw [if_neg hp, if_neg hp]
    dsimp only
    rw [Handler.read_bind]
    rcases Statement.processName ts with ⟨f | name, rest⟩
    · rfl
    · dsimp only
      rw [Handler.get_bind, Handler.get_bind, Stateful.bind_apply]
      change _ = Outcome.update a (a.processes.register name a.pc >>= _) _
      cases a.processes.register name a.pc <;> rfl

theorem closeProcess_eq : a.closeProcess ts =
    .update a (do
        if a.process.isNone then throw (.misplaced "endprocess")
        (Reader.finish ts).1)
      fun a _ => { a with process := none } := by
  rw [closeProcess, Handler.outcome_apply, Handler.closeProcess, Handler.get_bind]
  by_cases hp : a.process.isNone
  · rw [if_pos hp, if_pos hp]
    rfl
  · rw [if_neg hp, if_neg hp]
    dsimp only
    rw [Handler.read_bind]
    rcases Reader.finish ts with ⟨f | ⟨⟩, rest⟩ <;> rfl

def declare : Outcome := Id.run ((Handler.declare line ts).outcome a)

theorem declare_cons (t : Token) : a.declare line (t :: ts) =
    match t.kind with
    | .regDecl => a.declareRegister line ts
    | .constDecl => a.declareConst line ts
    | .dataDecl => a.declareData line ts
    | .process => a.openProcess ts
    | .endProcess => a.closeProcess ts
    | .instruction => ({ a with pc := a.pc + 1 }, none)
    | .pseudo => ({ a with pc := a.pc + pseudoSize t.text }, none)
    | _ => (a, some (Statement.unexpected t)) := by
  unfold declare Handler.declare
  simp only [Handler.check_eq, pure_bind]
  cases t.kind <;> rfl

theorem firstPass_eq : firstPass line a =
    match Statement.ofLine? line.text with
    | none => ((a.visit line).list line (-1) [], none)
    | some s =>
      match defineLabels s.labels (a.visit line) with
      | (a, none) => a.declare line s.body
      | (a, some f) => (a, some f) := by
  rw [firstPass, Handler.outcome_apply, Handler.firstPass, Handler.modify_bind]
  cases Statement.ofLine? line.text with
  | none =>
    dsimp only
    rw [Handler.list_eq]
    rfl
  | some s =>
    dsimp only
    rw [Stateful.bind_apply, defineLabels, Handler.outcome_apply]
    rcases Handler.defineLabels s.labels (a.visit line) with ⟨f | ⟨⟩, b⟩ <;> rfl

def scratch : Assembly × Except Fault Register :=
  Prod.swap (Id.run ((Handler.scratch line : Handler Id Register).run.run a))

def scratchFor (p : Pseudo) : Assembly × Except Fault Register :=
  Prod.swap (Id.run ((Handler.scratchFor line p : Handler Id Register).run.run a))

theorem scratch_eq : a.scratch line =
    match a.symbols.get? (scratchName a.process) with
    | some sym => (a, .ok (UInt8.ofInt sym.location))
    | none =>
      match a.nameRegister (scratchName a.process) 0 with
      | .error f => (a, .error f)
      | .ok symbols =>
        ((a.addRegister symbols 0).record
            (.scratch line.number (scratchName a.process) a.registerNext),
          .ok (UInt8.ofNat a.registerNext)) := by
  change Prod.swap ((Handler.scratch line : Handler Id Register) a) = _
  rw [Handler.scratch, Handler.get_bind, Handler.get_bind]
  cases a.symbols.get? (scratchName a.process) with
  | some sym => rfl
  | none =>
    dsimp only
    rw [Handler.allocRegister_bind]
    cases a.nameRegister (scratchName a.process) 0 <;> rfl

theorem scratchFor_eq_ite (p : Pseudo) :
    a.scratchFor line p = if p.usesScratch then a.scratch line else (a, .ok .zero) := by
  unfold scratchFor Handler.scratchFor
  split_ifs <;> rfl

end Assembly

namespace Handler

variable {β : Type} (a : Assembly) (line : Line)

theorem scratchFor_bind (p : Pseudo) (g : Register → Handler Id β) :
    (scratchFor line p >>= g) a = match a.scratchFor line p with
      | (b, .ok r) => g r b
      | (b, .error f) => (.error f, b) := by
  have hswap : a.scratchFor line p = Prod.swap ((scratchFor line p : Handler Id Register) a) := rfl
  rw [Stateful.bind_apply, hswap]
  rcases (scratchFor line p : Handler Id Register) a with ⟨f | r, b⟩ <;> rfl

theorem emit_single (w : Word) :
    (emit false line [w] : Handler Id Unit) a = (.ok (), a.emit line w) := by
  unfold emit listWords listWords
  simp only [check_eq, pure_bind]
  rfl

/-- Words that are inserted go in front of the place of their line, one after the other. -/
theorem listWords_insert (text : Text) (ws : List Word) :
    (listWords true line text ws : Handler Id Unit) a =
      (.ok (), { a with
        listing := a.listing.insertWords line.number a.pc text ws
        pc := a.pc + ws.length }) := by
  induction ws generalizing a text with
  | nil => rfl
  | cons w ws ih =>
    unfold listWords
    simp only [check_eq, pure_bind, if_true]
    rw [get_bind, modify_bind, modify_bind, ih]
    simp [Listing.insertWords, Nat.add_comm, Nat.add_left_comm]

theorem emit_expansion (ws : List Word) :
    (emit true line ws : Handler Id Unit) a = (.ok (), a.emitExpansion line ws) := by
  rw [emit, modify_bind, listWords_insert]
  rfl

end Handler

namespace Assembly

variable (a : Assembly) (line : Line) (ts : List Token)

def encode (op : Mnemonic) (ts : List Token) : Outcome :=
  Id.run ((Handler.encode line op ts).outcome a)

def expand (op : PseudoOp) (ts : List Token) : Outcome :=
  Id.run ((Handler.expand line op ts).outcome a)

theorem encode_eq (op : Mnemonic) : a.encode line op ts =
    .update a (Instruction.readAll a.scope op ts).1 fun a i => a.emit line i.word := by
  rw [encode, Handler.outcome_apply, Handler.encode, Handler.get_bind, Handler.read_bind]
  rcases Instruction.readAll a.scope op ts with ⟨f | i, rest⟩
  · rfl
  · dsimp only
    rw [Handler.emit_single]
    rfl

theorem expand_eq (op : PseudoOp) : a.expand line op ts =
    match Pseudo.read a.scope op ts with
    | (.error f, _) => (a, some f)
    | (.ok p, rest) =>
      match a.scratchFor line p with
      | (a, .error f) => (a, some f)
      | (a, .ok r) =>
        .update a (Reader.finish rest).1 fun a _ => a.emitExpansion line (p.words r) := by
  rw [expand, Handler.outcome_apply, Handler.expand, Handler.get_bind, Handler.read_bind]
  rcases Pseudo.read a.scope op ts with ⟨f | p, rest⟩
  · rfl
  · dsimp only
    rw [Handler.scratchFor_bind]
    rcases a.scratchFor line p with ⟨b, f | r⟩
    · rfl
    · dsimp only
      rw [Handler.read_bind]
      rcases Reader.finish rest with ⟨f | ⟨⟩, rest⟩
      · rfl
      · simp only [Handler.check_eq, pure_bind, Handler.emit_expansion]
        rfl

def reopenProcess : Outcome := Id.run ((Handler.reopenProcess line ts).outcome a)

def recloseProcess : Outcome := Id.run ((Handler.recloseProcess line ts).outcome a)

theorem reopenProcess_eq : a.reopenProcess line ts =
    .update a (do
        if a.process.isSome then throw (.misplaced "process")
        (Statement.processName ts).1)
      fun a name => { a with process := some name }.list line a.pc [] := by
  rw [reopenProcess, Handler.outcome_apply, Handler.reopenProcess, Handler.get_bind]
  simp only [Handler.list_eq]
  by_cases hp : a.process.isSome
  · rw [if_pos hp, if_pos hp]
    rfl
  · rw [if_neg hp, if_neg hp, Handler.read_bind]
    rcases Statement.processName ts with ⟨f | name, rest⟩ <;> rfl

theorem recloseProcess_eq : a.recloseProcess line ts =
    .update a (do
        if a.process.isNone then throw (.misplaced "endprocess")
        (Reader.finish ts).1)
      fun a _ => { a with process := none }.list line (-1) [] := by
  rw [recloseProcess, Handler.outcome_apply, Handler.recloseProcess, Handler.get_bind]
  simp only [Handler.list_eq]
  by_cases hp : a.process.isNone
  · rw [if_pos hp, if_pos hp]
    rfl
  · rw [if_neg hp, if_neg hp, Handler.read_bind]
    rcases Reader.finish ts with ⟨f | ⟨⟩, rest⟩ <;> rfl

def generate : Outcome := Id.run ((Handler.generate line ts).outcome a)

theorem generate_nil : a.generate line [] = (a.list line a.pc [], none) := by
  unfold generate Handler.generate
  simp only [Handler.list_eq]
  rfl

theorem generate_cons (t : Token) : a.generate line (t :: ts) =
    match t.kind with
    | .regDecl | .constDecl | .dataDecl => (a, none)
    | .process => a.reopenProcess line ts
    | .endProcess => a.recloseProcess line ts
    | .instruction =>
      match Mnemonic.ofName? t.text with
      | some op => a.encode line op ts
      | none => (a, some (Statement.unexpected t))
    | .pseudo =>
      match PseudoOp.ofName? t.text with
      | some op => a.expand line op ts
      | none => (a, some (Statement.unexpected t))
    | _ => (a, some (Statement.unexpected t)) := by
  unfold generate Handler.generate
  dsimp only
  cases t.kind with
  | instruction =>
    dsimp only
    cases Mnemonic.ofName? t.text <;> rfl
  | pseudo =>
    dsimp only
    cases PseudoOp.ofName? t.text <;> rfl
  | _ => rfl

theorem secondPass_eq : secondPass line a =
    match Statement.ofLine? line.text with
    | none => (a.record (.line 2 line), none)
    | some s => (a.record (.line 2 line)).generate line s.body := by
  have hcheck : (Handler.checkAddress line : Handler Id Unit) = pure () := by
    funext b
    unfold Handler.checkAddress
    rw [Handler.get_bind]
    cases b.addresses[line.number - 1]? <;> simp
  rw [secondPass, Handler.outcome_apply, Handler.secondPass, hcheck]
  simp only [pure_bind]
  rw [Handler.modify_bind, Handler.generateLine]
  cases Statement.ofLine? line.text <;> rfl

end Assembly

section Lines

variable (step : Line → Assembly → Outcome)

theorem runLines_nil (a : Assembly) : runLines step [] a = (a, none) := rfl

theorem runLines_cons (l : Line) (ls : List Line) (a : Assembly) :
    runLines step (l :: ls) a = match step l a with
      | (a, none) => runLines step ls a
      | (a, some f) => (a, some (l, f)) := rfl

end Lines

theorem Constants.nodup_symbols (c : Constants) : (c.symbols.entries.map Prod.fst).Nodup := by
  have hmap : c.symbols.entries.map Prod.fst =
      (c.entries.mergeSort fun a b => decide (a.1 ≤ b.1)).map Prod.fst := by
    unfold symbols
    rw [List.map_map]
    rfl
  rw [hmap, ((List.mergeSort_perm _ _).map _).nodup_iff]
  exact c.distinct

/-- Symbols whose names are distinct and not in use are inserted without a fault. -/
theorem Handler.insertSymbols_apply {es : List (Text × Symbol)} {a : Assembly}
    (h : ((a.symbols.entries ++ es).map Prod.fst).Nodup) :
    (insertSymbols es : Handler Id Unit) a =
      (.ok (), { a with symbols := ⟨a.symbols.entries ++ es⟩ }) := by
  induction es generalizing a with
  | nil =>
    rw [List.append_nil]
    rfl
  | cons e es ih =>
    have hnew : a.symbols.get? e.1 = none := by
      refine List.lookup_eq_none_iff.mpr fun p hp => ?_
      rw [List.map_append, List.nodup_append] at h
      have hne := h.2.2 p.1 (List.mem_map_of_mem hp) e.1 (by simp)
      simpa using Ne.symm hne
    have hins : a.symbols.insert e.1 e.2 = .ok ⟨a.symbols.entries ++ [e]⟩ := by
      rw [SymbolTable.insert, hnew]
      rfl
    rw [insertSymbols, insertSymbol_bind, hins]
    dsimp only
    rw [ih (by simpa using h)]
    simp

namespace Assembly

/-- The state before the first line of a source with this many lines. -/
def initial (constants : Constants) (lines : Nat) : Assembly :=
  { symbols := constants.symbols, listing := (Listing.blank? lines).getD {} }

/-- Nothing is left of an earlier assembly, and no constant is refused. -/
theorem reset_outcome (a : Assembly) (constants : Constants) (lines : Nat) :
    Id.run ((Handler.reset constants lines).outcome a) = (initial constants lines, none) := by
  rw [Handler.outcome_apply, Handler.reset, Handler.modify_bind,
    Handler.insertSymbols_apply (by simpa [clear] using constants.nodup_symbols)]
  rfl

def program (a : Assembly) : Program := Id.run a.programM

theorem words_program (a : Assembly) :
    a.program.words = a.opcodes.toList.flatMap Opcode.words := rfl

def finish (a : Assembly) : Assembly × Except Diagnostic Program := Id.run a.finishM

/-- Assemble lines with nothing assembled before. -/
def run (constants : Constants) (lines : List Line) : Assembly × Except Diagnostic Program :=
  Id.run (({} : Assembly).assembleM constants lines)

theorem finish_eq (a : Assembly) : a.finish =
    match a.processes.checkCapacity with
    | .error f => (a, .error (.program f))
    | .ok () =>
      (a.record (.finished a.processes.count a.registers.size a.data.size a.pc), .ok a.program) :=
  rfl

/-- What was assembled before does not matter. -/
theorem assembleM_eq_passesM (a : Assembly) (constants : Constants) (lines : List Line) :
    Id.run (a.assembleM constants lines) =
      Id.run ((initial constants lines.length).passesM lines) := by
  rw [assembleM, Id.run_bind, reset_outcome]

theorem assemble_eq_run (a : Assembly) (constants : Constants) (lines : List Line) :
    Id.run (a.assembleM constants lines) = run constants lines := by
  rw [run, assembleM_eq_passesM, assembleM_eq_passesM]

theorem run_eq (constants : Constants) (lines : List Line) :
    run constants lines =
      match runLines firstPass lines (initial constants lines.length) with
      | (a, some (l, f)) => (a, .error (.line l f))
      | (a, none) =>
        match checkProcessCount a.processes with
        | .error f => (a, .error (.program f))
        | .ok () =>
          match runLines secondPass lines a.restart with
          | (a, some (l, f)) => (a, .error (.line l f))
          | (a, none) => a.finish := by
  rw [run, assembleM_eq_passesM]
  rfl

end Assembly

theorem Assembler.assemble_of_lines (as : Assembler) {source : Text} {texts : List Text}
    (h : Text.lines? source = some texts) :
    as.assemble source =
      ({ as with toAssembly := (Assembly.run as.constants (Line.ofTexts texts)).1 },
        ⟨(Assembly.run as.constants (Line.ofTexts texts)).2,
          (Assembly.run as.constants (Line.ofTexts texts)).1.events⟩) := by
  rw [assemble, h]
  dsimp only
  rw [Assembly.assemble_eq_run]

end BarrelAsm
