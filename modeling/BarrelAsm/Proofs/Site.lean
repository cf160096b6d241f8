import BarrelAsm.Proofs.Growth

/-! The lines of a source at their places, and the names that they define. -/
namespace BarrelAsm

/-- A line with the address of its words and the process that it is in. -/
structure Site where
  line : Line
  address : Nat
  process : Option Text
deriving DecidableEq

/-- The full name of a symbol defined here. -/
def Site.qualify (s : Site) (name : Text) : Text := Scope.qualifier s.process ++ name

namespace Source

def sitesFrom (address : Nat) (process : Option Text) : List Line → List Site
  | [] => []
  | l :: ls => ⟨l, address, process⟩ :: sitesFrom (address + l.size) (l.processAfter process) ls

/-- The lines of a source, each at its place. -/
def sites (lines : List Line) : List Site := sitesFrom 0 none lines

theorem sitesFrom_append (address : Nat) (process : Option Text) (xs ys : List Line) :
    sitesFrom address process (xs ++ ys) = sitesFrom address process xs ++
      sitesFrom (address + size xs) (xs.foldl Line.processAfter process) ys := by
  induction xs generalizing address process with
  | nil => simp [sitesFrom]
  | cons x xs ih => simp [sitesFrom, ih, Nat.add_assoc]

@[simp] theorem sites_nil : sites [] = [] := rfl

@[simp] theorem sites_concat (ls : List Line) (l : Line) :
    sites (ls ++ [l]) = sites ls ++ [⟨l, size ls, process ls⟩] := by
  simp [sites, sitesFrom_append, sitesFrom, process]

@[simp] theorem length_sites (ls : List Line) : (sites ls).length = ls.length := by
  induction ls using List.reverseRecOn with
  | nil => rfl
  | append_singleton ls l ih => simp [ih]

theorem drop_sites {pre lines : List Line} {l : Line} (h : pre ++ [l] <+: lines) :
    (sites lines).drop pre.length =
      ⟨l, size pre, process pre⟩ :: (sites lines).drop (pre ++ [l]).length := by
  obtain ⟨post, rfl⟩ := h
  have hsplit : sites (pre ++ [l] ++ post) = sites (pre ++ [l]) ++
      sitesFrom (size (pre ++ [l])) (process (pre ++ [l])) post := by
    rw [sites, sitesFrom_append, Nat.zero_add]
    rfl
  rw [hsplit, List.drop_left' (length_sites _), sites_concat, List.append_assoc,
    List.drop_left' (length_sites _)]
  rfl

theorem mem_sites_iff {lines : List Line} {s : Site} :
    s ∈ sites lines ↔ ∃ pre, pre ++ [s.line] <+: lines ∧ s.address = size pre ∧
      s.process = process pre := by
  induction lines using List.reverseRecOn with
  | nil => simp
  | append_singleton ls l ih =>
    rw [sites_concat, List.mem_append, ih, List.mem_singleton]
    simp only [List.prefix_concat_iff]
    constructor
    · rintro (⟨pre, hp, hs⟩ | rfl)
      · exact ⟨pre, .inr hp, hs⟩
      · exact ⟨ls, .inl rfl, rfl, rfl⟩
    · rintro ⟨pre, he | hp, ha, hproc⟩
      · obtain ⟨rfl, hl⟩ := List.append_inj' he rfl
        cases s
        cases hl
        cases ha
        cases hproc
        exact .inr rfl
      · exact .inl ⟨pre, hp, ha, hproc⟩

end Source

/-- The kind of symbol that a keyword declares. -/
def TokenKind.declares? : TokenKind → Option SymbolKind
  | regDecl => some .register
  | constDecl => some .const
  | dataDecl => some .data
  | _ => none

namespace Line

/-- The kind and the name of the symbol that a line declares. -/
def declares? (l : Line) : Option (SymbolKind × Text) :=
  match l.body with
  | t :: u :: _ => t.kind.declares?.map fun kind => (kind, u.text)
  | _ => none

/-- The pseudo-instruction of a line. -/
def pseudo? (l : Line) : Option PseudoOp :=
  match l.body with
  | t :: _ => if t.kind = .pseudo then PseudoOp.ofName? t.text else none
  | [] => none

theorem declares?_of_body {l : Line} {t u : Token} {ts : List Token} (h : l.body = t :: u :: ts) :
    l.declares? = t.kind.declares?.map fun kind => (kind, u.text) := by
  rw [declares?, h]

theorem declares?_of_kind {l : Line} {t : Token} {ts : List Token} (h : l.body = t :: ts)
    (hk : t.kind.declares? = none) : l.declares? = none := by
  cases ts with
  | nil => rw [declares?, h]
  | cons u us =>
    rw [declares?_of_body h, hk]
    rfl

theorem declares?_of_nil {l : Line} (h : l.body = []) : l.declares? = none := by
  rw [declares?, h]

end Line

/-- A label of the line or its declaration has this full name. -/
def Site.Defines (s : Site) (full : Text) : Prop :=
  (∃ l ∈ s.line.labels, full = s.qualify l) ∨
    ∃ kind name, s.line.declares? = some (kind, name) ∧ full = s.qualify name

namespace Assembly

variable {a b : Assembly} {line : Line} {lines : List Line} {constants : Constants} {n : Nat}

theorem readDeclaration_ok {α : Type} {body : Reader α} {ts : List Token} {name : Text} {x : α}
    (h : (readDeclaration body ts).1 = .ok (name, x)) :
    ∃ u rest, ts = u :: rest ∧ u.kind = .identifier ∧ u.text = name ∧ body rest = (.ok x, []) := by
  obtain ⟨u, mid, hu, h⟩ := Stateful.bind_ok (Prod.ext h rfl)
  obtain ⟨y, rest, hy, h⟩ := Stateful.bind_ok h
  obtain ⟨⟨⟩, _, hf, h⟩ := Stateful.bind_ok h
  obtain ⟨hp, -⟩ := Reader.pure_ok h
  cases hp
  obtain ⟨rfl, -⟩ := Reader.finish_ok hf
  obtain ⟨rfl, hk⟩ := Reader.expect_ok hu
  exact ⟨u, mid, rfl, by simpa using hk, rfl, hy⟩

theorem Declared.exists_identifier {t : Token} {ts : List Token} {kind : SymbolKind}
    (h : Declared a line (t :: ts) b) (hk : t.kind.declares? = some kind) :
    ∃ u us, ts = u :: us ∧ u.kind = .identifier := by
  cases h with
  | register _ hr | const _ _ hr | data _ hr =>
    obtain ⟨u, rest, he, hid, -⟩ := readDeclaration_ok hr
    exact ⟨u, rest, he, hid⟩
  | opening hk' | closing hk' | instruction hk' | pseudo hk' =>
    rw [hk'] at hk
    cases hk

/-- A statement adds the symbol that it declares, lists it, and does nothing else of the kind. -/
theorem Declared.symbols (h : Declared a line line.body b) :
    (line.declares? = none ∧ b.symbols = a.symbols ∧ b.listing = a.listing) ∨
      ∃ name sym, line.declares? = some (sym.kind, name) ∧
        a.symbols.insert (a.qualify name) sym = .ok b.symbols ∧
        (sym.kind = .const → sym.location = 0) ∧
        b.listing = (a.list line sym.location (Text.hex16 sym.value)).listing := by
  generalize hb : line.body = ts at h
  cases h with
  | nothing => exact .inl ⟨Line.declares?_of_nil hb, rfl, rfl⟩
  | register hk hr hs =>
    obtain ⟨u, rest, rfl, -, rfl, -⟩ := readDeclaration_ok hr
    refine .inr ⟨u.text, _, ?_, (nameRegister_ok hs).2, by simp, rfl⟩
    rw [Line.declares?_of_body hb, hk]
    rfl
  | @const t ts name value symbols hk hp hr hs =>
    obtain ⟨u, rest, rfl, -, rfl, -⟩ := readDeclaration_ok hr
    refine .inr ⟨u.text, ⟨.const, value, 0, 0⟩, ?_, ?_, fun _ => rfl, rfl⟩
    · rw [Line.declares?_of_body hb, hk]
      rfl
    · rw [qualify, hp]
      exact hs
  | data hk hr hs =>
    obtain ⟨u, rest, rfl, -, rfl, -⟩ := readDeclaration_ok hr
    refine .inr ⟨u.text, _, ?_, hs, by simp, rfl⟩
    rw [Line.declares?_of_body hb, hk]
    rfl
  | opening hk | closing hk | instruction hk | pseudo hk =>
    exact .inl ⟨Line.declares?_of_kind hb (by rw [hk]; rfl), rfl, rfl⟩

theorem defineLabels_get? {ls : List Text} (h : defineLabels ls a = (b, none)) (full : Text) :
    (b.symbols.get? full).isSome ↔
      (a.symbols.get? full).isSome ∨ ∃ l ∈ ls, full = a.qualify l :=
  defineLabels_iff (R := fun t => (t.get? full).isSome) h fun _ _ _ hs =>
    SymbolTable.isSome_get?_insert hs full

/-- A line defines its labels and what it declares. -/
theorem firstPass_get? (h : firstPass line a = (b, none)) (full : Text) :
    (b.symbols.get? full).isSome ↔
      (a.symbols.get? full).isSome ∨ (⟨line, a.pc, a.process⟩ : Site).Defines full := by
  unfold Site.Defines
  rcases firstPass_ok h with ⟨hn, rfl⟩ | ⟨s, c, hs, hc, hb⟩
  · rw [Line.labels_of_none hn, Line.declares?_of_nil (Line.body_of_none hn)]
    simp [list, visit]
  · rw [← Line.body_of_some hs] at hb
    have hlabels := defineLabels_get? hc full
    rw [← Line.labels_of_some hs] at hlabels
    have hqual : ∀ name, c.qualify name = Scope.qualifier a.process ++ name := by
      intro name
      rw [defineLabels_eq hc]
      rfl
    rcases hb.symbols with ⟨hd, he, -⟩ | ⟨name, sym, hd, hins, -⟩
    · rw [he, hlabels, hd]
      simp [qualify, visit, Site.qualify]
    · rw [SymbolTable.isSome_get?_insert hins, hlabels, hd, hqual]
      simp [qualify, visit, Site.qualify, or_assoc]

/-- After the first pass there are the symbols of the constants and those that lines define. -/
theorem firstPass_defines (h : runLines firstPass lines (initial constants n) = (a, none))
    (full : Text) :
    (a.symbols.get? full).isSome ↔
      (constants.get? full).isSome ∨ ∃ s ∈ Source.sites lines, s.Defines full := by
  refine runLines_induction (P := fun ls x => (x.symbols.get? full).isSome ↔
    (constants.get? full).isSome ∨ ∃ s ∈ Source.sites ls, s.Defines full) h ?_ ?_
  · change (constants.symbols.get? full).isSome ↔ _
    simpa using isSome_get?_constants constants full
  · intro pre line c d _ hrun hc hd
    obtain ⟨hpc, hp⟩ := firstPass_place hrun
    rw [firstPass_get? hd, hc, hpc, hp]
    simp [or_and_right, exists_or, or_assoc]

/-- What a line declares is in the table from then on. -/
theorem get?_of_declares (h : runLines firstPass lines (initial constants n) = (a, none)) {s : Site}
    (hs : s ∈ Source.sites lines) {kind : SymbolKind} {name : Text}
    (hd : s.line.declares? = some (kind, name)) :
    ∃ sym, a.symbols.get? (s.qualify name) = some sym ∧ sym.kind = kind := by
  obtain ⟨pre, hp, -, hproc⟩ := Source.mem_sites_iff.mp hs
  obtain ⟨c, d, post, hc, hd', hpost⟩ := runLines_at_ok hp h
  obtain ⟨-, hcp⟩ := firstPass_place hc
  have hgrows := runLines_grows_ok firstPass_grows hpost
  rcases firstPass_ok hd' with ⟨hn, -⟩ | ⟨st, e, hst, he, hb⟩
  · rw [Line.declares?_of_nil (Line.body_of_none hn)] at hd
    cases hd
  · rw [← Line.body_of_some hst] at hb
    rcases hb.symbols with ⟨hno, -⟩ | ⟨m, sym, hm, hins, -⟩
    · rw [hno] at hd
      cases hd
    · rw [hm] at hd
      have hqual : ∀ full, e.qualify full = s.qualify full := by
        intro full
        rw [defineLabels_eq he, Site.qualify, hproc, ← hcp]
        rfl
      cases hd
      refine ⟨sym, hgrows.get? ?_, rfl⟩
      rw [← hqual]
      exact (SymbolTable.get?_insert_iff hins).mpr (.inr ⟨rfl, rfl⟩)

end Assembly
end BarrelAsm
