import BarrelAsm.Proofs.Argument
import BarrelAsm.Proofs.Numeral

/-! The values of expressions. An expression is values with operators between them, up to a comma or
the end of the line, and its value is the fold of the operators from left to right. -/
namespace BarrelAsm

namespace Expr

/-- The operators of expressions. -/
inductive Operator where
  | mul | add | sub | div
deriving DecidableEq, Repr

namespace Operator

def symbol : Operator → Text
  | mul => "*"
  | add => "+"
  | sub => "-"
  | div => "/"

/-- An operator as it is written. -/
def token (o : Operator) : Token := ⟨.operator, o.symbol, 0⟩

/-- The exact result; a quotient is cut toward zero. -/
def eval : Operator → Int → Int → Int
  | mul, a, b => a * b
  | add, a, b => a + b
  | sub, a, b => a - b
  | div, a, b => a.tdiv b

/-- The result in 64 bits. -/
def wrapped (o : Operator) (a b : Int) : Int := Arith.wrap (o.eval a b)

/-- The operation on machine integers. -/
def machine : Operator → Int64 → Int64 → Int64
  | mul, a, b => a * b
  | add, a, b => a + b
  | sub, a, b => a - b
  | div, a, b => a / b

theorem wrapped_toInt (o : Operator) (a b : Int64) :
    o.wrapped a.toInt b.toInt = (o.machine a b).toInt := by
  cases o with
  | mul => exact (Int64.toInt_mul a b).symm
  | add => exact (Int64.toInt_add a b).symm
  | sub => exact (Int64.toInt_sub a b).symm
  | div => exact (Int64.toInt_div a b).symm

/-- Only the division by zero has no result. -/
theorem apply_symbol_ok_iff {o : Operator} {a b v : Int} :
    apply o.symbol a b = .ok v ↔ (o = div → b ≠ 0) ∧ v = o.wrapped a b := by
  cases o with
  | div =>
    have happly : apply div.symbol a b =
        if b = 0 then .error .divisionByZero else .ok (Arith.div a b) := rfl
    rw [happly]
    by_cases hb : b = 0
    · simp [hb]
    · simp [hb, wrapped, eval, Arith.div, eq_comm]
  | mul =>
    have happly : apply mul.symbol a b = .ok (Arith.mul a b) := rfl
    simp [happly, wrapped, eval, Arith.mul, eq_comm]
  | add =>
    have happly : apply add.symbol a b = .ok (Arith.add a b) := rfl
    simp [happly, wrapped, eval, Arith.add, eq_comm]
  | sub =>
    have happly : apply sub.symbol a b = .ok (Arith.sub a b) := rfl
    simp [happly, wrapped, eval, Arith.sub, eq_comm]

end Operator

/-- Values with operators between them. -/
structure Chain (α : Type) where
  first : α
  rest : List (Operator × α)
deriving DecidableEq, Repr

namespace Chain

variable {α β : Type}

def map (f : α → β) (c : Chain α) : Chain β := ⟨f c.first, c.rest.map fun e => (e.1, f e.2)⟩

/-- Apply the operators strictly from left to right. -/
def fold (f : Operator → α → α → α) (c : Chain α) : α :=
  c.rest.foldl (fun acc e => f e.1 acc e.2) c.first

/-- The same operators in front of values that are related. -/
def Linked (R : α → β → Prop) : List (Operator × α) → List (Operator × β) → Prop :=
  List.Forall₂ fun x y => x.1 = y.1 ∧ R x.2 y.2

/-- The same operators between values that are related. -/
def Rel (R : α → β → Prop) (c : Chain α) (d : Chain β) : Prop :=
  R c.first d.first ∧ Linked R c.rest d.rest

/-- The tokens of operators with a value behind each. -/
def links (es : List (Operator × Token)) : List Token := es.flatMap fun e => [e.1.token, e.2]

/-- The tokens of an expression. -/
def tokens (c : Chain Token) : List Token := c.first :: links c.rest

/-- No division is by zero. -/
def Proper (d : Chain Int) : Prop := ∀ e ∈ d.rest, e.1 = .div → e.2 ≠ 0

theorem proper_cons_iff {a b c : Int} {o : Operator} {ws : List (Operator × Int)} :
    Proper ⟨a, (o, b) :: ws⟩ ↔ (o = .div → b ≠ 0) ∧ Proper ⟨c, ws⟩ := by
  simp [Proper]

theorem fold_map_toInt (d : Chain Int64) :
    (d.map Int64.toInt).fold Operator.wrapped = (d.fold Operator.machine).toInt := by
  obtain ⟨first, rest⟩ := d
  unfold fold map
  dsimp only
  induction rest generalizing first with
  | nil => rfl
  | cons e es ih =>
    rw [List.map_cons, List.foldl_cons, List.foldl_cons, Operator.wrapped_toInt]
    exact ih _

end Chain
end Expr

namespace Scope

open BarrelAsm.Expr

variable {s : Scope} {name : Text} {sym : Symbol} {t : Token} {v : Int}

/-- The name stands for the symbol. One of the process comes before a global one. -/
def Resolves (s : Scope) (name : Text) (sym : Symbol) : Prop :=
  s.symbols.get? (qualifier s.process ++ name) = some sym ∨
    s.symbols.get? (qualifier s.process ++ name) = none ∧ s.symbols.get? name = some sym

theorem lookup_ok_iff : s.lookup name = .ok sym ↔ s.Resolves name sym := by
  unfold lookup SymbolTable.lookup Resolves
  cases s.symbols.get? (qualifier s.process ++ name) with
  | some own => simp
  | none =>
    cases s.symbols.get? name with
    | some global => simp
    | none => simp

/-- A token counts with this value, numbers as `literal` says: a constant with its value, data and
labels with their location. -/
inductive Counts (s : Scope) (literal : Token → Int → Prop) : Token → Int → Prop where
  | number {t : Token} {v : Int} (hk : t.kind = .number) (hv : literal t v) : Counts s literal t v
  | const {t : Token} {sym : Symbol} (hk : t.kind = .identifier) (hs : s.Resolves t.text sym)
      (hc : sym.kind = .const) : Counts s literal t sym.value
  | place {t : Token} {sym : Symbol} (hk : t.kind = .identifier) (hs : s.Resolves t.text sym)
      (hc : sym.kind = .data ∨ sym.kind = .label) : Counts s literal t sym.location

/-- The tokens are an expression with this value in 64-bit arithmetic. -/
def Computes (s : Scope) (x : List Token) (v : Int) : Prop :=
  ∃ (c : Chain Token) (d : Chain Int), x = c.tokens ∧ c.Rel (s.Counts fun t w => t.value = w) d ∧
    d.Proper ∧ v = d.fold Operator.wrapped

theorem symbolValue_ok_iff : symbolValue name sym = .ok v ↔
    (sym.kind = .const ∧ v = sym.value) ∨
      ((sym.kind = .data ∨ sym.kind = .label) ∧ v = sym.location) := by
  unfold symbolValue
  cases sym.kind <;> simp [eq_comm]

theorem valueOf_ok_iff : s.valueOf t = .ok v ↔ s.Counts (fun t w => t.value = w) t v := by
  constructor
  · intro h
    obtain ⟨u, hu, h⟩ := except_bind_ok h
    obtain ⟨rfl, hk⟩ := Token.require_ok hu
    split_ifs at h with hnumber
    · cases h
      exact .number hnumber rfl
    · have hname : t.kind = .identifier := by simpa [valueKinds, hnumber] using hk
      obtain ⟨sym, hs, h⟩ := except_bind_ok h
      rw [lookup_ok_iff] at hs
      rcases symbolValue_ok_iff.mp h with ⟨hc, rfl⟩ | ⟨hc, rfl⟩
      · exact .const hname hs hc
      · exact .place hname hs hc
  · intro h
    have hname : ∀ {sym : Symbol}, t.kind = .identifier → s.Resolves t.text sym →
        s.valueOf t = symbolValue t.text sym := by
      intro sym hk hs
      rw [← lookup_ok_iff] at hs
      simp [valueOf, Token.require, valueKinds, hk, hs, bind, Except.bind]
    cases h with
    | number hk hv =>
      subst v
      simp [valueOf, Token.require, valueKinds, hk, bind, Except.bind, pure, Except.pure]
    | const hk hs hc => rw [hname hk hs, symbolValue_ok_iff]; exact .inl ⟨hc, rfl⟩
    | place hk hs hc => rw [hname hk hs, symbolValue_ok_iff]; exact .inr ⟨hc, rfl⟩

end Scope

namespace Token

/-- A token of a source line: operators and commas are spelled in one way only, and a number has the
value of its literal, cut to 16 bits. -/
structure Written (t : Token) : Prop where
  operator : t.kind = .operator → ∃ o : Expr.Operator, t = o.token
  comma : t.kind = .comma → t = .comma
  number : t.kind = .number → ∃ v, Numeral.Denotes t.text v ∧ t.value = v % 2 ^ 16

theorem written_of_kind {t : Token} (ho : t.kind ≠ .operator) (hc : t.kind ≠ .comma)
    (hn : t.kind ≠ .number) : t.Written :=
  ⟨fun h => absurd h ho, fun h => absurd h hc, fun h => absurd h hn⟩

theorem written_ofPlain (t : Text) : (ofPlain t).Written := by
  unfold ofPlain
  split_ifs with hname hcomma hop
  · exact written_of_kind (by simp) (by simp) (by simp)
  · subst t
    exact ⟨by simp, fun _ => rfl, by simp⟩
  · refine ⟨fun _ => ?_, by simp, by simp⟩
    obtain ⟨hlen, hall⟩ := hop
    obtain ⟨b, rfl⟩ := List.length_eq_one_iff.mp hlen
    have hb : b = 42 ∨ b = 43 ∨ b = 45 ∨ b = 47 := by simpa [isOperator, or_assoc] using hall
    rcases hb with rfl | rfl | rfl | rfl
    · exact ⟨.mul, rfl⟩
    · exact ⟨.add, rfl⟩
    · exact ⟨.sub, rfl⟩
    · exact ⟨.div, rfl⟩
  · exact written_of_kind (by simp) (by simp) (by simp)

theorem written_ofDelimited (t : Text) : (ofDelimited t).Written := by
  unfold ofDelimited
  split
  · exact written_of_kind (by simp) (by simp) (by simp)
  · split
    · exact written_of_kind (by simp) (by simp) (by simp)
    · split
      · exact written_of_kind (by simp) (by simp) (by simp)
      · exact written_ofPlain t

theorem written_keyword {t : Text} {k : TokenKind} (h : keyword? t = some k) :
    (⟨k, t, 0⟩ : Token).Written := by
  unfold keyword? at h
  split_ifs at h <;> cases h <;> exact written_of_kind (by simp) (by simp) (by simp)

theorem written_number {t : Text} {n : UInt16} (h : Numeral.read? t = some n) :
    (⟨.number, t, n.toNat⟩ : Token).Written := by
  refine ⟨by simp, by simp, fun _ => ?_⟩
  unfold Numeral.read? at h
  split at h
  · rename_i v hv
    split_ifs at h
    cases h
    exact ⟨v, Numeral.value?_eq_some_iff.mp hv, Arith.toNat_uint16_ofInt v⟩
  · cases h

theorem written_ofText (t : Text) : (ofText t).Written := by
  unfold ofText
  split_ifs
  · exact written_of_kind (by simp) (by simp) (by simp)
  · exact written_of_kind (by simp) (by simp) (by simp)
  · split
    · exact written_number (by assumption)
    · split
      · exact written_keyword (by assumption)
      · split
        · exact written_of_kind (by simp) (by simp) (by simp)
        · exact written_ofDelimited t

theorem written_of_suffix {line : Text} {ts : List Token} (h : ts <:+ tokenize line) :
    ∀ t ∈ ts, t.Written := by
  intro t ht
  obtain ⟨piece, -, rfl⟩ := List.mem_map.mp (h.subset ht)
  exact written_ofText piece

end Token

namespace Expr

variable {s : Scope} {v : Int} {ts rest x : List Token}

/-- An operator and a value are applied to what was computed so far. -/
theorem continueFrom_link {acc y : Int} {o : Operator} {t : Token} (hy : s.valueOf t = .ok y)
    (hdiv : o = .div → y ≠ 0) (x : List Token) :
    continueFrom s acc (o.token :: t :: x) = continueFrom s (o.wrapped acc y) x := by
  have happly : s.valueOf t >>= apply o.token.text acc = .ok (o.wrapped acc y) := by
    rw [hy]
    exact Operator.apply_symbol_ok_iff.mpr ⟨hdiv, rfl⟩
  have hop : o.token.require [.operator] = .ok o.token := by simp [Token.require, Operator.token]
  have hk : o.token.kind ≠ .comma := by simp [Operator.token]
  conv_lhs => unfold continueFrom
  simp only [if_neg hk, hop, happly]

/-- The rest of an expression is a list of links. -/
theorem continueFrom_ok_iff {acc : Int} (hx : ∀ t ∈ x, t.Written) :
    continueFrom s acc x = (.ok v, []) ↔
      ∃ es ws, x = Chain.links es ∧ Chain.Linked (s.Counts fun t w => t.value = w) es ws ∧
        Chain.Proper ⟨acc, ws⟩ ∧ v = Chain.fold Operator.wrapped ⟨acc, ws⟩ := by
  constructor
  · intro h
    fun_induction continueFrom s acc x with
    | case1 acc =>
      cases h
      exact ⟨[], [], rfl, .nil, by simp [Chain.Proper], rfl⟩
    | case2 => cases h
    | case3 => cases h
    | case4 => cases h
    | case5 => cases h
    | case6 acc t ht op u us hop w hw ih =>
      obtain ⟨ht, hx'⟩ := List.forall_mem_cons.mp hx
      obtain ⟨-, hus⟩ := List.forall_mem_cons.mp hx'
      obtain ⟨rfl, hk⟩ := Token.require_ok hop
      obtain ⟨o, rfl⟩ := ht.operator (by simpa using hk)
      obtain ⟨y, hy, hw⟩ := except_bind_ok hw
      obtain ⟨hdiv, rfl⟩ := Operator.apply_symbol_ok_iff.mp hw
      obtain ⟨es, ws, rfl, hlinked, hproper, rfl⟩ := ih hus h
      refine ⟨(o, u) :: es, (o, y) :: ws, rfl, ?_, ?_, rfl⟩
      · exact .cons ⟨rfl, Scope.valueOf_ok_iff.mp hy⟩ hlinked
      · exact Chain.proper_cons_iff.mpr ⟨hdiv, hproper⟩
  · -- Links are operators and values by themselves, wherever they come from.
    rintro ⟨es, ws, rfl, hlinked, hproper, rfl⟩
    clear hx
    induction hlinked generalizing acc with
    | nil => rfl
    | @cons e w es ws he _ ih =>
      obtain ⟨o, t⟩ := e
      obtain ⟨o', y⟩ := w
      obtain ⟨rfl, hy⟩ := he
      obtain ⟨hdiv, hproper⟩ := Chain.proper_cons_iff.mp hproper
      exact (continueFrom_link (Scope.valueOf_ok_iff.mpr hy) hdiv _).trans (ih hproper)

/-- Tokens of a source line are an expression if and only if they can be evaluated. -/
theorem isValue_iff (hx : ∀ t ∈ x, t.Written) : s.IsValue x v ↔ s.Computes x v := by
  rw [Scope.IsValue, immediate_eq]
  cases x with
  | nil =>
    constructor
    · rintro ⟨⟩
    · rintro ⟨c, d, hc, -⟩
      cases hc
  | cons t us =>
    obtain ⟨-, hus⟩ := List.forall_mem_cons.mp hx
    constructor
    · intro h
      rw [evaluate] at h
      rcases hw : s.valueOf t with f | w
      · rw [hw] at h
        cases h
      · rw [hw] at h
        obtain ⟨es, ws, rfl, hlinked, hproper, rfl⟩ := (continueFrom_ok_iff hus).mp h
        exact ⟨⟨t, es⟩, ⟨w, ws⟩, rfl, ⟨Scope.valueOf_ok_iff.mp hw, hlinked⟩, hproper, rfl⟩
    · rintro ⟨⟨first, es⟩, ⟨w, ws⟩, hc, ⟨hw, hlinked⟩, hproper, rfl⟩
      obtain ⟨rfl, rfl⟩ := List.cons.inj hc
      rw [evaluate, Scope.valueOf_ok_iff.mpr hw]
      exact (continueFrom_ok_iff hus).mpr ⟨es, ws, rfl, hlinked, hproper, rfl⟩

/-- The tokens in front of the first comma. -/
def head (ts : List Token) : List Token := ts.takeWhile (·.kind ≠ .comma)

/-- The first comma and the tokens behind it. -/
def tail (ts : List Token) : List Token := ts.dropWhile (·.kind ≠ .comma)

theorem head_append_tail (ts : List Token) : head ts ++ tail ts = ts :=
  List.takeWhile_append_dropWhile

theorem head_tail_append {u : List Token} (hu : ∀ t ∈ u, t.kind ≠ .comma)
    (hr : ∀ t ∈ rest.head?, t.kind = .comma) : head (u ++ rest) = u ∧ tail (u ++ rest) = rest := by
  have hall : ∀ t ∈ u, decide (t.kind ≠ .comma) = true := by simpa using hu
  unfold head tail
  rw [List.takeWhile_append_of_pos hall, List.dropWhile_append_of_pos hall]
  cases rest with
  | nil => simp
  | cons t ts =>
    have ht : t.kind = .comma := hr t rfl
    simp [ht]

theorem comma_of_tail (ts : List Token) : ∀ t ∈ (tail ts).head?, t.kind = .comma := by
  intro t ht
  have h := List.head?_dropWhile_not (fun t : Token => decide (t.kind ≠ .comma)) ts
  rw [show ts.dropWhile _ = tail ts from rfl, ht] at h
  simpa using h

theorem comma_of_continueFrom {acc : Int} (h : continueFrom s acc ts = (.ok v, rest)) :
    ∀ t ∈ rest.head?, t.kind = .comma := by
  fun_induction continueFrom s acc ts with
  | case1 => cases h; simp
  | case2 acc t ts ht => cases h; simpa using ht
  | case3 => cases h
  | case4 => cases h
  | case5 => cases h
  | case6 acc t _ op u us _ _ _ ih => exact ih h

theorem comma_of_evaluate (h : evaluate s ts = (.ok v, rest)) :
    ∀ t ∈ rest.head?, t.kind = .comma := by
  unfold evaluate at h
  split at h
  · cases h
  · split at h
    · cases h
    · exact comma_of_continueFrom h

/-- An expression takes up the tokens in front of the first comma. -/
theorem evaluate_ok_iff :
    evaluate s ts = (.ok v, rest) ↔ s.IsValue (head ts) v ∧ rest = tail ts := by
  constructor
  · intro h
    have hcomma := comma_of_evaluate h
    rw [← immediate_eq] at h
    obtain ⟨u, rfl, hu, hv⟩ := immediate_split h
    obtain ⟨hhead, htail⟩ := head_tail_append hu hcomma
    rw [hhead, htail]
    exact ⟨hv, rfl⟩
  · rintro ⟨h, rfl⟩
    have htakes := h.takes (tail ts) (comma_of_tail ts)
    rwa [head_append_tail, immediate_eq] at htakes

/-- At a cursor, an expression passes the tokens in front of the first comma. -/
theorem read_evaluate_ok_iff {c d : Cursor} :
    c.read (evaluate s) = (.ok v, d) ↔
      s.IsValue (head c.rest) v ∧ d = ⟨(head c.rest).reverse ++ c.passed, tail c.rest⟩ := by
  rcases h : evaluate s c.rest with ⟨r, rest⟩
  constructor
  · intro hread
    obtain ⟨pre, hc⟩ := (advances_evaluate s).suffix h
    rw [Cursor.read_of_append hc.symm h] at hread
    obtain ⟨rfl, rfl⟩ := Prod.mk.inj hread
    obtain ⟨hv, rfl⟩ := evaluate_ok_iff.mp h
    have hpre : pre = head c.rest := List.append_cancel_right (hc.trans (head_append_tail _).symm)
    exact ⟨hv, by rw [hpre]⟩
  · rintro ⟨hv, rfl⟩
    exact Cursor.read_of_append (head_append_tail c.rest).symm (evaluate_ok_iff.mpr ⟨hv, rfl⟩)

/-- Evaluation succeeds if and only if the tokens up to the first comma are values with operators
between them and no division is by zero. The value is the fold of the operators in 64-bit
arithmetic, and the comma is left, where a cursor comes to stand. The two other ways to read an
expression differ from this one only at the end of the line. -/
theorem evaluate_exact {line : Text} (hts : ts <:+ Token.tokenize line) :
    (∀ v rest, evaluate s ts = (.ok v, rest) ↔ s.Computes (head ts) v ∧ rest = tail ts) ∧
    (∀ c : Cursor, c.rest = ts → (c.read (evaluate s)).2.toList = c.toList ∧
      ∀ v d, c.read (evaluate s) = (.ok v, d) ↔
        s.Computes (head ts) v ∧ d = ⟨(head ts).reverse ++ c.passed, tail ts⟩) ∧
    (∀ us, immediate s us = evaluate s us) ∧
    (∀ us, us ≠ [] → optional s us = evaluate s us) ∧
    ∀ d : Chain Int64,
      (d.map Int64.toInt).fold Operator.wrapped = (d.fold Operator.machine).toInt := by
  have hwritten := Token.written_of_suffix hts
  have hhead : ∀ t ∈ head ts, t.Written :=
    fun t ht => hwritten t ((List.takeWhile_sublist _).subset ht)
  refine ⟨fun v rest => ?_, ?_, fun us => by rw [immediate_eq], ?_, Chain.fold_map_toInt⟩
  · rw [evaluate_ok_iff, isValue_iff hhead]
  · rintro c rfl
    refine ⟨Cursor.toList_read (advances_evaluate s) c, fun v d => ?_⟩
    rw [read_evaluate_ok_iff, isValue_iff hhead]
  · intro us hus
    cases us with
    | nil => exact absurd rfl hus
    | cons u us =>
      rw [← immediate_eq]
      rfl

/-- The least integer, and a name that means something else in the process than outside of it. -/
def extremes : Scope :=
  ⟨⟨[("least", ⟨.const, -2 ^ 63, 0, 0⟩), ("minus", ⟨.const, 1, 0, 0⟩),
    ("p.minus", ⟨.const, -1, 0, 0⟩)]⟩, some "p"⟩

theorem evaluate_exact_least :
    extremes.Computes (head (Token.tokenize "least / minus, 4")) (-2 ^ 63) ∧
      tail (Token.tokenize "least / minus, 4") = [.comma, ⟨.number, "4", 4⟩] := by
  have h : @Eq (Except Fault Int × List Token)
      (evaluate extremes (Token.tokenize "least / minus, 4"))
      (.ok (-2 ^ 63), [.comma, ⟨.number, "4", 4⟩]) := by
    decide +kernel
  obtain ⟨hvalue, hrest⟩ := ((evaluate_exact (List.suffix_refl _)).1 _ _).mp h
  exact ⟨hvalue, hrest.symm⟩

end Expr
end BarrelAsm
