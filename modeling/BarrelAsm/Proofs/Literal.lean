import BarrelAsm.Assembly.FirstPass
import BarrelAsm.Proofs.DataSegment
import BarrelAsm.Proofs.Delimiter
import BarrelAsm.Proofs.Join
import BarrelAsm.Proofs.Operand
import BarrelAsm.Proofs.Symbol
import BarrelAsm.Proofs.Token

/-! Data declarations with a string: which bytes of a line reach the data segment. -/
namespace BarrelAsm

namespace Token

variable {g g' w u y : Text} {q : UInt8}

theorem isWord_of_isName (h : Text.isName w = true) : IsWord w := by
  have hword := List.all_eq_true.mp (Text.all_isWordByte_of_isName h)
  refine .plain ?_ ?_ ?_
  · rintro rfl
    cases h
  · intro b hb hin
    have hne := ne_of_mem_of_not_mem hb Text.nil_notMem_blanks
    obtain ⟨x, r, rfl⟩ := List.exists_cons_of_ne_nil hne
    have hno := not_isWordByte_of_mem_blanks hb x List.mem_cons_self
    rw [hword x (hin.subset List.mem_cons_self)] at hno
    cases hno
  · intro x hx hmem
    have hx := hword x hx
    simp only [List.mem_cons, List.not_mem_nil, or_false] at hmem
    rcases hmem with rfl | rfl | rfl | rfl | rfl | rfl | rfl | rfl <;> exact absurd hx (by decide)

theorem not_isDigit_of_isNameStart {b : UInt8} (h : Text.isNameStart b = true) :
    Text.isDigit b = false := by
  simp only [Text.isNameStart, Bool.or_eq_true, Bool.and_eq_true, decide_eq_true_eq, beq_iff_eq,
    UInt8.le_iff_toNat_le] at h
  by_contra hdigit
  simp only [Text.isDigit, Bool.not_eq_false, Bool.and_eq_true, decide_eq_true_eq,
    UInt8.le_iff_toNat_le] at hdigit
  rcases h with (rfl | h) | h
  · exact absurd hdigit (by decide)
  · simp at h hdigit
    omega
  · simp at h hdigit
    omega

theorem unclaimed_of_isName (h : Text.isName w = true) (hm : Mnemonic.ofName? w = none)
    (hp : PseudoOp.ofName? w = none) (hk : keyword? w = none) : Unclaimed w := by
  refine ⟨hm, hp, ?_, hk, ?_⟩
  · rw [Option.eq_none_iff_forall_ne_some]
    intro v hv
    cases w with
    | nil => cases h
    | cons b bs =>
      have hstart : Text.isNameStart b = true := (Bool.and_eq_true_iff.mp h).1
      rcases head_of_read? hv with hdigit | rfl | rfl
      · rw [not_isDigit_of_isNameStart hstart] at hdigit
        cases hdigit
      · exact absurd hstart (by decide)
      · exact absurd hstart (by decide)
  · have hall := List.all_eq_true.mp (Text.all_isWordByte_of_isName h)
    simp [labelName?, List.dropWhile_eq_nil_iff.mpr hall]

/-- A name that means nothing else is an identifier. -/
theorem ofText_name (h : Text.isName w = true) (hm : Mnemonic.ofName? w = none)
    (hp : PseudoOp.ofName? w = none) (hk : keyword? w = none) : ofText w = ⟨.identifier, w, 0⟩ := by
  have hword := List.all_eq_true.mp (Text.all_isWordByte_of_isName h)
  have hnone : ∀ kind, contents? kind w = none := by
    intro kind
    refine contents?_eq_none kind fun d hd hm => ?_
    have hne := ne_delimiter (.inr (hword _ hm))
    have hcases := fst_of_mem_delimiters hd
    tauto
  have hquoted : quoted? w = none := hnone .string
  have hbracketed : bracketed? w = none := hnone .size
  have hparenthesised : parenthesised? w = none := hnone .indirection
  rw [(unclaimed_of_isName h hm hp hk).ofText, ofDelimited, hquoted, hbracketed, hparenthesised,
    ofPlain, if_pos h]

theorem ofText_data : ofText ".data" = ⟨.dataDecl, ".data", 0⟩ := by decide +kernel

theorem isWord_data : IsWord (".data" : Text) := by
  have hall : (".data" : Text).all (· ∉ ([45, 44, 43, 42, 47, 91, 34, 39] : Text)) = true := by
    decide
  exact .plain (by decide) (by decide) fun x hx => of_decide_eq_true (List.all_eq_true.mp hall x hx)

/-- A data declaration of the word `w` with the text `u` in quotes, and `y` behind the last quote of
their kind. -/
inductive Quoting (w : Text) (q : UInt8) (u y : Text) : Text → Prop where
  | mk {g g' : Text} (hg : IsGap g) (hg' : IsGap g') (hq : q = 34 ∨ q = 39) (hu : 10 ∉ u)
      (hy : q ∉ y) :
      Quoting w q u y ((".data" : Text) ++ (g ++ (w ++ (g' ++ (q :: (u ++ [q]) ++ y)))))

theorem Quoting.trimmedPieces {t : Text} (h : Quoting w q u y t) (hw : IsWord w) :
    trimmedPieces t = (".data" : Text) :: w :: (q :: (u ++ [q])) :: trimmedPieces y := by
  obtain ⟨hg, hg', hq, hu, hy⟩ := h
  have hclose : closer? q = some q := by rcases hq with rfl | rfl <;> rfl
  have hsign : Unsigned (q :: (u ++ [q]) ++ y) := by
    intro x hx
    obtain rfl : q = x := by simpa using hx
    rcases hq with rfl | rfl <;> decide
  rw [trimmedPieces_word isWord_data (hg.head _), trimmedPieces_gap_word hg (.inl hw) (hg'.head _),
    trimmedPieces_gap hg'.isBlank hsign,
    trimmedPieces_enclosed hclose hu fun hm => hy ((List.takeWhile_sublist _).subset hm)]

theorem Quoting.ofText {t : Text} (h : Quoting w q u y t) :
    ofText (q :: (u ++ [q])) = ⟨.string, Text.before q u, (Text.before q u).length⟩ := by
  obtain ⟨-, -, hq, hu, -⟩ := h
  exact ofText_quote hq hu

end Token

namespace Assembly

open Token

variable {a : Assembly} {line : Line} {name p : Text} {ps : List Text}

/-- A name that can be declared here: it has no other meaning and is not declared yet. -/
structure FreeName (a : Assembly) (name : Text) : Prop where
  isName : Text.isName name = true
  mnemonic : Mnemonic.ofName? name = none
  pseudo : PseudoOp.ofName? name = none
  keyword : keyword? name = none
  undeclared : a.symbols.get? (a.qualify name) = none

/-- Between the two states a string has been added under this name: its bytes and a zero are behind
the data so far, and its symbol has their place and their number without the zero. -/
structure Stores (a b : Assembly) (name s : Text) : Prop where
  data : b.data.toList = a.data.toList ++ s ++ [0]
  dataNext : b.dataNext = a.dataNext + s.length + 1
  symbols : ∀ m, b.symbols.get? m =
    if m = a.qualify name then
      some ⟨.data, ((s.head?.map UInt8.toNat).getD 0 : Nat), s.length, a.dataNext⟩
    else a.symbols.get? m
  unchanged : { b with
    symbols := a.symbols
    data := a.data
    dataNext := a.dataNext
    listing := a.listing
    addresses := a.addresses
    events := a.events } = a

theorem readDeclaration_string {s : Scope} {k : Token} (hk : k.kind = .string) (v : Int)
    (ts : List Token) :
    readDeclaration (DataItem.read s) (⟨.identifier, name, v⟩ :: k :: ts) =
      (do Reader.finish; return (name, .string k.text) : Reader (Text × DataItem)) ts := by
  have hname : Reader.expect [.identifier] (⟨.identifier, name, v⟩ :: k :: ts) =
      (.ok ⟨.identifier, name, v⟩, k :: ts) := Reader.expect_of_mem (by simp) _
  have hitem : DataItem.read s (k :: ts) = (.ok (.string k.text), ts) := by
    simp [DataItem.read, Token.require, DataItem.kinds, hk]
  rw [readDeclaration, Reader.bind_of_ok hname, Reader.bind_of_ok hitem]

/-- A line whose pieces declare a string goes to the declaration of data. -/
theorem firstPass_data (hname : FreeName a name)
    (hp : trimmedPieces (Statement.code line.text) = (".data" : Text) :: name :: p :: ps) :
    firstPass line a = (a.visit line).declareData line
      (⟨.identifier, name, 0⟩ :: ofText p :: ps.map ofText) := by
  have htokens : tokenize (Statement.code line.text) =
      ⟨.dataDecl, ".data", 0⟩ :: ⟨.identifier, name, 0⟩ :: ofText p :: ps.map ofText := by
    rw [tokenize, hp, List.map_cons, List.map_cons, List.map_cons, ofText_data,
      ofText_name hname.isName hname.mnemonic hname.pseudo hname.keyword]
  have hcode : (Statement.code line.text).isEmpty = false := by
    cases hc : Statement.code line.text with
    | nil =>
      rw [hc, trimmedPieces_nil] at hp
      cases hp
    | cons b t => rfl
  have hline : Statement.ofLine? line.text = some ⟨[], ⟨.dataDecl, ".data", 0⟩ ::
      ⟨.identifier, name, 0⟩ :: ofText p :: ps.map ofText⟩ := by
    simp [Statement.ofLine?, hcode, htokens, Statement.ofTokens]
  rw [firstPass_eq, hline]
  dsimp only
  rw [defineLabels_nil]
  dsimp only
  rw [declare_cons]

theorem firstPass_string (hname : FreeName a name)
    (hp : trimmedPieces (Statement.code line.text) = [(".data" : Text), name, p])
    (hk : (ofText p).kind = .string) :
    ∃ b, firstPass line a = (b, none) ∧ Stores a b name (ofText p).text := by
  have hinsert : ∃ symbols, a.symbols.insert (a.qualify name)
      ((DataItem.string (ofText p).text).symbol a.dataNext) = .ok symbols := by
    simp [SymbolTable.insert, hname.undeclared]
  obtain ⟨symbols, hsymbols⟩ := hinsert
  refine ⟨((a.visit line).addData symbols (DataItem.string (ofText p).text).bytes).list
    line a.dataNext (Text.hex16 (DataItem.string (ofText p).text).firstValue), ?_, ?_⟩
  · rw [firstPass_data hname hp, declareData_eq, readDeclaration_string hk]
    change Outcome.update _ (do
      let symbols ← a.symbols.insert (a.qualify name)
        ((DataItem.string (ofText p).text).symbol a.dataNext)
      return (DataItem.string (ofText p).text, symbols)) _ = _
    rw [hsymbols]
    rfl
  · refine ⟨?_, ?_, SymbolTable.get?_insert hsymbols, rfl⟩
    · simp [addData, list, visit, DataItem.bytes]
    · change a.dataNext + ((ofText p).text ++ [0]).length = _
      rw [List.length_append, List.length_singleton, Nat.add_assoc]

theorem firstPass_trailing {p' : Text} (hname : FreeName a name)
    (hp : trimmedPieces (Statement.code line.text) = (".data" : Text) :: name :: p :: p' :: ps)
    (hk : (ofText p).kind = .string) :
    firstPass line a = (a.visit line, some (.trailing (ofText p').text)) := by
  rw [firstPass_data hname hp, declareData_eq, readDeclaration_string hk, List.map_cons]
  rfl

theorem firstPass_quoting {q : UInt8} {u y : Text} (line : Line) (hname : FreeName a name)
    (h : Quoting name q u y (Statement.code line.text)) :
    if Text.trim y = [] then
      ∃ b, firstPass line a = (b, none) ∧ Stores a b name (Text.before q u)
    else
      ∃ k ∈ tokenize y, firstPass line a = (a.visit line, some (.trailing k.text)) := by
  have hpieces := h.trimmedPieces (isWord_of_isName hname.isName)
  have htext := h.ofText
  have hkind : (ofText (q :: (u ++ [q]))).kind = .string := by rw [htext]
  split_ifs with hy
  · rw [trimmedPieces_eq_nil_iff.mpr hy] at hpieces
    have hstored := firstPass_string hname hpieces hkind
    rwa [htext] at hstored
  · obtain ⟨p, ps, hps⟩ := List.exists_cons_of_ne_nil (mt trimmedPieces_eq_nil_iff.mp hy)
    rw [hps] at hpieces
    refine ⟨ofText p, ?_, firstPass_trailing hname hpieces hkind⟩
    rw [tokenize, hps]
    exact List.mem_cons_self

theorem code_quote {g g' s : Text} {q : UInt8} (hname : Text.isName name = true) (hg : IsGap g)
    (hg' : IsGap g') (hq : q = 34 ∨ q = 39) (hs : 59 ∉ s) :
    Statement.code ((".data" : Text) ++ (g ++ (name ++ (g' ++ q :: (s ++ [q]))))) =
      (".data" : Text) ++ (g ++ (name ++ (g' ++ q :: (s ++ [q])))) := by
  have hword := List.all_eq_true.mp (Text.all_isWordByte_of_isName hname)
  have hgap : ∀ {g : Text}, IsGap g → 59 ∉ g := by
    intro g hg hm
    exact absurd (hg.2 _ hm) (by decide)
  have hno : 59 ∉ (".data" : Text) ++ (g ++ (name ++ (g' ++ q :: (s ++ [q])))) := by
    simp only [List.mem_append, List.mem_cons, List.not_mem_nil, or_false, not_or]
    refine ⟨by decide, hgap hg, fun hm => absurd (hword _ hm) (by decide), hgap hg', ?_, hs, ?_⟩ <;>
      rcases hq with rfl | rfl <;> decide
  have hlast : q < 128 ∧ [q] ∉ Text.blanks := by rcases hq with rfl | rfl <;> decide
  rw [Statement.code, Text.before_of_notMem hno]
  exact Text.trim_of_ascii (a := 46) (c := q) rfl (by simp [List.getLast?_cons])
    ⟨by decide, hlast.1⟩ ⟨by decide, hlast.2⟩

/-- The bytes between two quotes are stored as they are. -/
theorem string_stored (a : Assembly) (n : Nat) {g g' s : Text} {q : UInt8} (hname : FreeName a name)
    (hg : IsGap g) (hg' : IsGap g') (hq : q = 34 ∨ q = 39) (hs : q ∉ s ∧ 59 ∉ s ∧ 10 ∉ s) :
    ∃ b, firstPass ⟨n, (".data" : Text) ++ (g ++ (name ++ (g' ++ q :: (s ++ [q]))))⟩ a = (b, none) ∧
      Stores a b name s := by
  obtain ⟨hquote, hcomment, hline⟩ := hs
  have hcode := code_quote hname.isName hg hg' hq hcomment
  have hquoting := Quoting.mk (w := name) hg hg' hq hline (List.not_mem_nil (a := q))
  rw [List.append_nil, ← hcode] at hquoting
  have hstored := firstPass_quoting ⟨n, _⟩ hname hquoting
  rwa [if_pos (trimmedPieces_eq_nil_iff.mp trimmedPieces_nil),
    Text.before_of_notMem hquote] at hstored

/-- A state inside a process, behind the declaration of a string. -/
def literalSample : Assembly where
  symbols := ⟨[("p.hi", ⟨.data, 104, 2, 0x200⟩)]⟩
  data := #[104, 105, 0]
  dataNext := 0x203
  process := some "p"

/-- A literal that looks like everything else that the splitter knows, and is no UTF-8. -/
def hostile : Text := ("add [4], \"-1\" + (r): .reg " : Text) ++ [0xFF, 0xC2]

theorem string_stored_hostile :
    ∃ b, firstPass ⟨7, (".data" : Text) ++ ([9, 32] ++ (("msg" : Text) ++ ([32] ++
        39 :: (hostile ++ [39]))))⟩ literalSample = (b, none) ∧
      b.data.toList = [104, 105, 0] ++ hostile ++ [0] ∧ b.dataNext = 0x203 + 29 ∧
      b.symbols.get? "p.msg" = some ⟨.data, 97, 28, 0x203⟩ := by
  have hname : FreeName literalSample "msg" := by constructor <;> decide +kernel
  have htab : IsGap [9, 32] := by simp [IsGap]
  have hspace : IsGap [32] := by simp [IsGap]
  obtain ⟨b, hb, hstored⟩ := string_stored literalSample 7 (s := hostile) hname htab hspace
    (.inr rfl) (by decide +kernel)
  refine ⟨b, hb, hstored.data, hstored.dataNext.trans (by decide +kernel), ?_⟩
  rw [hstored.symbols]
  decide +kernel

end Assembly

open Token Assembly

/-- The token of a string, a size or an indirection is that of a part of its text in delimiters,
which is the whole text only if they end at its last byte and not before. A piece of a line has more
to it if another quote of the same kind follows inside it, if a string stands in brackets, or if
other bytes are stuck to the delimiters. A data declaration passes over these bytes, and fails only
if there is a further piece. -/
theorem delimited_exact {t : Text} (h : Delimited (ofText t)) :
    (∃ pre p post, t = pre ++ (p ++ post) ∧ Encloses p (ofText t) ∧ ofText p = ofText t) ∧
    (Encloses t (ofText t) ↔ Proper (ofText t).kind t) ∧
    (∀ line, t ∈ trimmedPieces line → (Loss t (ofText t) ↔ ¬ Encloses t (ofText t))) ∧
    (∀ (a : Assembly) (line : Line) (name : Text) (ps : List Text), (ofText t).kind = .string →
      a.FreeName name →
      trimmedPieces (Statement.code line.text) = (".data" : Text) :: name :: t :: ps →
      match ps with
      | [] => ∃ b, firstPass line a = (b, none) ∧ Stores a b name (ofText t).text
      | p' :: _ =>
        firstPass line a = (a.visit line, some (.trailing (ofText p').text))) ∧
    ∀ (a : Assembly) (line : Line) (name : Text) (q : UInt8) (u y : Text), t = q :: (u ++ [q]) →
      a.FreeName name → Quoting name q u y (Statement.code line.text) →
      (ofText t).text = Text.before q u ∧
        if Text.trim y = [] then
          ∃ b, firstPass line a = (b, none) ∧ Stores a b name (ofText t).text
        else
          ∃ k ∈ tokenize y,
            firstPass line a = (a.visit line, some (.trailing k.text)) := by
  refine ⟨exists_part h, encloses_iff_proper h, fun line hp => loss_iff_not_encloses hp h, ?_, ?_⟩
  · intro a line name ps hk hname hp
    cases ps with
    | nil => exact firstPass_string hname hp hk
    | cons p' ps => exact firstPass_trailing hname hp hk
  · rintro a line name q u y rfl hname hline
    rw [hline.ofText]
    exact ⟨rfl, firstPass_quoting line hname hline⟩

/-- Text behind an indirection, before a string, between two strings and behind a string. -/
theorem delimited_exact_stuck :
    (∃ pre p post, ("(r)junk" : Text) = pre ++ (p ++ post) ∧ ofText p = ⟨.indirection, "r", 0⟩) ∧
    (∃ b, firstPass ⟨1, ".data t x'e'"⟩ {} = (b, none) ∧ b.data.toList = [101, 0]) ∧
    (∃ b, firstPass ⟨1, ".data t 'e' junk 'f'"⟩ {} = (b, none) ∧ b.data.toList = [101, 0]) ∧
    ∃ b k, firstPass ⟨1, ".data t 'e' junk 'f'x"⟩ {} = (b, some (.trailing k)) := by
  have hname : FreeName {} "t" := by constructor <;> decide +kernel
  have hspace : IsGap [32] := by simp [IsGap]
  have hline : ∀ {y : Text}, 39 ∉ y → Quoting "t" 39 "e' junk 'f" y ((".data" : Text) ++ ([32] ++
      (("t" : Text) ++ ([32] ++ (39 :: (("e' junk 'f" : Text) ++ [39]) ++ y))))) :=
    fun hy => .mk hspace hspace (.inr rfl) (by decide +kernel) hy
  have hindirection : ofText "(r)junk" = ⟨.indirection, "r", 0⟩ := by decide +kernel
  have hstuck : ofText "x'e'" = ⟨.string, "e", 1⟩ := by decide +kernel
  have hquotes : ofText (39 :: (("e' junk 'f" : Text) ++ [39])) = ⟨.string, "e", 1⟩ := by
    decide +kernel
  obtain ⟨⟨pre, p, post, ht, -, hp⟩, -⟩ :=
    delimited_exact (t := "(r)junk") (.inr (.inr (by rw [hindirection])))
  obtain ⟨-, -, -, hpieces, -⟩ := delimited_exact (t := "x'e'") (.inl (by rw [hstuck]))
  obtain ⟨-, -, -, -, hquoting⟩ := delimited_exact (t := 39 :: (("e' junk 'f" : Text) ++ [39]))
    (.inl (by rw [hquotes]))
  refine ⟨⟨pre, p, post, ht, hp.trans hindirection⟩, ?_, ?_, ?_⟩
  · obtain ⟨b, hb, hstored⟩ := hpieces {} ⟨1, ".data t x'e'"⟩ "t" [] (by rw [hstuck]) hname
      (by decide +kernel)
    exact ⟨b, hb, hstored.data.trans (by decide +kernel)⟩
  · have hcode : Statement.code ".data t 'e' junk 'f'" = (".data" : Text) ++ ([32] ++
        (("t" : Text) ++ ([32] ++ (39 :: (("e' junk 'f" : Text) ++ [39]) ++ [])))) := by
      decide +kernel
    obtain ⟨-, hend⟩ := hquoting {} ⟨1, ".data t 'e' junk 'f'"⟩ "t" 39 _ [] rfl hname
      (hcode ▸ hline List.not_mem_nil)
    rw [if_pos (by decide +kernel)] at hend
    obtain ⟨b, hb, hstored⟩ := hend
    exact ⟨b, hb, hstored.data.trans (by decide +kernel)⟩
  · have hcode : Statement.code ".data t 'e' junk 'f'x" = (".data" : Text) ++ ([32] ++
        (("t" : Text) ++ ([32] ++ (39 :: (("e' junk 'f" : Text) ++ [39]) ++ [120])))) := by
      decide +kernel
    obtain ⟨-, hmore⟩ := hquoting {} ⟨1, ".data t 'e' junk 'f'x"⟩ "t" 39 _ [120] rfl hname
      (hcode ▸ hline (by decide))
    rw [if_neg (by decide +kernel)] at hmore
    obtain ⟨k, -, hk⟩ := hmore
    exact ⟨_, k.text, hk⟩

/-- A source with text before a string, between two strings and behind an indirection. -/
def Source.stuck : List Text :=
  [(".reg r" : Text), ".data s \"ab\" junk \"cd\"", ".data t x'e'", "process p0",
    "add (r)junk, r, r", "endprocess"] ++ Source.idles

/-- Text outside the delimiters of a token may be passed over without an error. -/
theorem outside_discarded :
    (ofText "(r)junk" = ⟨.indirection, "r", 0⟩ ∧ ¬ Encloses "(r)junk" (ofText "(r)junk")) ∧
    ∃ a program, Assembly.run {} (Line.ofTexts Source.stuck) = (a, .ok program) ∧
      program.data = #[97, 98, 0, 101, 0] := by
  have hkind : ofText "(r)junk" = ⟨.indirection, "r", 0⟩ := by decide +kernel
  refine ⟨⟨hkind, ?_⟩, ?_⟩
  · rw [hkind]
    rintro ⟨o, c, -, ht⟩
    have hlen := congrArg List.length ht
    simp only [List.length_cons, List.length_append, List.length_nil] at hlen
    exact absurd hlen (by decide)
  · obtain ⟨a, program, h⟩ : ∃ a program,
        Assembly.run {} (Line.ofTexts Source.stuck) = (a, .ok program) :=
      Assembly.run_of_isOk (by decide +kernel)
    have hdata : (Assembly.run {} (Line.ofTexts Source.stuck)).2.toOption.map (·.data) =
        some #[97, 98, 0, 101, 0] := by decide +kernel
    rw [h] at hdata
    exact ⟨a, program, h, Option.some.inj hdata⟩

end BarrelAsm
