import BarrelAsm.Proofs.Names
import BarrelAsm.Proofs.Numeral
import BarrelAsm.Proofs.Registry
import BarrelAsm.Proofs.Split

/-! Strings, sizes and indirections: which part of a text its token keeps, and when that is all of
it. -/
namespace BarrelAsm.Token

variable {t s p r : Text} {q : UInt8} {kind : TokenKind}

/-- The opening and closing bytes of a kind of token. -/
def delimiters : TokenKind → List (UInt8 × UInt8)
  | .string => [(34, 34), (39, 39)]
  | .size => [(91, 93)]
  | .indirection => [(40, 41)]
  | _ => []

theorem fst_of_mem_delimiters {d : UInt8 × UInt8} (h : d ∈ delimiters kind) :
    d.1 = 34 ∨ d.1 = 39 ∨ d.1 = 91 ∨ d.1 = 40 := by
  cases kind <;> simp [delimiters] at h
  case string => rcases h with rfl | rfl <;> simp
  case size => simp [h]
  case indirection => simp [h]

/-- A token of a kind that has delimiters. -/
def Delimited (k : Token) : Prop := k.kind = .string ∨ k.kind = .size ∨ k.kind = .indirection

/-- The text is the text of the token in its delimiters and nothing else. -/
def Encloses (t : Text) (k : Token) : Prop :=
  ∃ o c, (o, c) ∈ delimiters k.kind ∧ t = o :: (k.text ++ [c])

/-- A text in delimiters of this kind that end at its last byte and not before. -/
inductive Proper : TokenKind → Text → Prop where
  | string {q : UInt8} {u : Text} (hq : q = 34 ∨ q = 39) (hu : q ∉ u) (hline : 10 ∉ u) :
      Proper .string (q :: (u ++ [q]))
  | size {u : Text} : Proper .size (91 :: (u ++ [93]))
  | indirection {u : Text} (hu : u.all Text.isWordByte = true) :
      Proper .indirection (40 :: (u ++ [41]))

/-! What the first delimiters of a kind enclose. -/

theorem untilQuote?_eq_some_iff :
    untilQuote? q t = some s ↔ (q ∉ s ∧ 10 ∉ s) ∧ ∃ post, t = s ++ q :: post := by
  unfold untilQuote?
  constructor
  · intro h
    split_ifs at h with hhead
    obtain rfl := Option.some.inj h
    obtain ⟨post, hpost⟩ := List.head?_eq_some_iff.mp hhead
    refine ⟨⟨?_, ?_⟩, post, ?_⟩
    · intro hm
      simpa using List.mem_takeWhile_imp hm
    · intro hm
      simpa using List.mem_takeWhile_imp hm
    · rw [← hpost, List.takeWhile_append_dropWhile]
  · rintro ⟨⟨hs, hline⟩, post, rfl⟩
    have hkeep : ∀ x ∈ s, (x != q && x != 10) = true := by
      intro x hx
      have hxq : x ≠ q := fun he => hs (he ▸ hx)
      have hxl : x ≠ 10 := fun he => hline (he ▸ hx)
      simp [hxq, hxl]
    obtain ⟨htake, hdrop⟩ := takeWhile_append_stop (r := q :: post) hkeep (by simp)
    rw [htake, hdrop]
    simp

theorem quoted?_some (h : quoted? t = some s) :
    ∃ pre q post, (q = 34 ∨ q = 39) ∧ (q ∉ s ∧ 10 ∉ s) ∧ t = pre ++ q :: (s ++ q :: post) := by
  fun_induction quoted? t with
  | case1 => cases h
  | case2 b bs hb ih =>
    have hb : b = 34 ∨ b = 39 := by simpa using hb
    rcases Option.or_eq_some_iff.mp h with hfirst | ⟨-, hlater⟩
    · obtain ⟨hs, post, rfl⟩ := untilQuote?_eq_some_iff.mp hfirst
      exact ⟨[], b, post, hb, hs, rfl⟩
    · obtain ⟨pre, q, post, hq, hs, rfl⟩ := ih hlater
      exact ⟨b :: pre, q, post, hq, hs, rfl⟩
  | case3 b bs _ ih =>
    obtain ⟨pre, q, post, hq, hs, rfl⟩ := ih h
    exact ⟨b :: pre, q, post, hq, hs, rfl⟩

theorem quoted?_of_quote (hq : q = 34 ∨ q = 39) (hs : q ∉ s ∧ 10 ∉ s) (post : Text) :
    quoted? (q :: (s ++ q :: post)) = some s := by
  have hquote : (q == 34 || q == 39) = true := by simpa using hq
  rw [quoted?, if_pos hquote, untilQuote?_eq_some_iff.mpr ⟨hs, post, rfl⟩, Option.some_or]

theorem exists_of_dropWhile {c x : UInt8} (h : t.dropWhile (· != c) = x :: r) :
    ∃ pre, t = pre ++ c :: r := by
  have hstop := head_dropWhile (Option.mem_def.mpr (congrArg List.head? h))
  have hx : x = c := by simpa using hstop
  refine ⟨t.takeWhile (· != c), ?_⟩
  rw [← hx, ← h, hx, List.takeWhile_append_dropWhile]

theorem bracketed?_some (h : bracketed? t = some s) :
    ∃ pre post, t = pre ++ 91 :: (s ++ 93 :: post) := by
  unfold bracketed? at h
  split at h
  · cases h
  · rename_i x back hback
    obtain rfl := Option.some.inj h
    cases hopen : t.dropWhile (· != 91) with
    | nil => simp [hopen] at hback
    | cons y inner =>
      rw [hopen, List.drop_one, List.tail_cons] at hback
      obtain ⟨pre, hpre⟩ := exists_of_dropWhile hopen
      obtain ⟨post, hpost⟩ := exists_of_dropWhile hback
      have hinner : inner = back.reverse ++ 93 :: post.reverse := by
        rw [← List.reverse_reverse inner, hpost]
        simp
      exact ⟨pre, post.reverse, by rw [hpre, hinner]⟩

theorem bracketed?_of_bracket (u : Text) : bracketed? (91 :: (u ++ [93])) = some u := by
  simp [bracketed?]

theorem parenthesised?_some (h : parenthesised? t = some s) :
    ∃ pre post, t = pre ++ 40 :: (s ++ 41 :: post) := by
  fun_induction parenthesised? t with
  | case1 => cases h
  | case2 b bs hb =>
    obtain rfl := Option.some.inj h
    simp only [Bool.and_eq_true, beq_iff_eq, decide_eq_true_eq] at hb
    obtain ⟨post, hpost⟩ := List.head?_eq_some_iff.mp hb.2
    refine ⟨[], post, ?_⟩
    rw [hb.1, ← hpost, List.takeWhile_append_dropWhile]
    rfl
  | case3 b bs _ ih =>
    obtain ⟨pre, post, rfl⟩ := ih h
    exact ⟨b :: pre, post, rfl⟩

theorem parenthesised?_of_parenthesis {u : Text} (hu : u.all Text.isWordByte = true) :
    parenthesised? (40 :: (u ++ [41])) = some u := by
  obtain ⟨htake, hdrop⟩ := takeWhile_append_stop (r := [41]) (List.all_eq_true.mp hu) (by
    intro x hx
    obtain rfl : 41 = x := by simpa using hx
    rfl)
  simp [parenthesised?, htake, hdrop]

/-- The contents of the first delimiters of this kind. -/
def contents? : TokenKind → Text → Option Text
  | .string => quoted?
  | .size => bracketed?
  | .indirection => parenthesised?
  | _ => fun _ => none

theorem contents?_some (h : contents? kind t = some s) :
    ∃ pre o c post, (o, c) ∈ delimiters kind ∧ t = pre ++ o :: (s ++ c :: post) := by
  unfold contents? at h
  split at h
  · obtain ⟨pre, q, post, rfl | rfl, -, ht⟩ := quoted?_some h
    · exact ⟨pre, 34, 34, post, by decide, ht⟩
    · exact ⟨pre, 39, 39, post, by decide, ht⟩
  · obtain ⟨pre, post, ht⟩ := bracketed?_some h
    exact ⟨pre, 91, 93, post, by decide, ht⟩
  · obtain ⟨pre, post, ht⟩ := parenthesised?_some h
    exact ⟨pre, 40, 41, post, by decide, ht⟩
  · cases h

theorem contents?_of_proper (h : Proper kind t) :
    ∃ s o c, contents? kind t = some s ∧ (o, c) ∈ delimiters kind ∧ t = o :: (s ++ [c]) := by
  cases h with
  | @string q u hq hu hline =>
    refine ⟨u, q, q, quoted?_of_quote hq ⟨hu, hline⟩ [], ?_, rfl⟩
    rcases hq with rfl | rfl <;> decide
  | @size u => exact ⟨u, 91, 93, bracketed?_of_bracket u, by decide, rfl⟩
  | @indirection u hu => exact ⟨u, 40, 41, parenthesised?_of_parenthesis hu, by decide, rfl⟩

/-- Delimiters around the same contents leave no room for anything else. -/
theorem nothing_outside {pre post : Text} {o c o' c' : UInt8}
    (h : pre ++ o :: (s ++ c :: post) = o' :: (s ++ [c'])) : pre = [] ∧ post = [] := by
  have hlen := congrArg List.length h
  simp only [List.length_append, List.length_cons, List.length_nil] at hlen
  exact ⟨List.length_eq_zero_iff.mp (by omega), List.length_eq_zero_iff.mp (by omega)⟩

theorem proper_of_contents? {o c : UInt8} (h : contents? kind t = some s)
    (hoc : (o, c) ∈ delimiters kind) (ht : t = o :: (s ++ [c])) : Proper kind t := by
  unfold contents? at h
  split at h
  · obtain ⟨pre, q, post, hq, hs, hsplit⟩ := quoted?_some h
    obtain ⟨rfl, rfl⟩ := nothing_outside (hsplit.symm.trans ht)
    exact hsplit ▸ .string hq hs.1 hs.2
  · simp only [delimiters, List.mem_singleton, Prod.mk.injEq] at hoc
    obtain ⟨rfl, rfl⟩ := hoc
    exact ht ▸ .size
  · simp only [delimiters, List.mem_singleton, Prod.mk.injEq] at hoc
    obtain ⟨rfl, rfl⟩ := hoc
    exact ht ▸ .indirection (parenthesised?_all h)
  · cases h

/-! The token of a text. -/

/-- A text that is no mnemonic, number, keyword or label. -/
structure Unclaimed (t : Text) : Prop where
  mnemonic : Mnemonic.ofName? t = none
  pseudo : PseudoOp.ofName? t = none
  number : Numeral.read? t = none
  keyword : keyword? t = none
  label : labelName? t = none

theorem Unclaimed.ofText (h : Unclaimed t) : ofText t = ofDelimited t := by
  simp [Token.ofText, h.mnemonic, h.pseudo, h.number, h.keyword, h.label]

theorem not_delimited_keyword (h : keyword? t = some kind) (v : Int) :
    ¬ Delimited ⟨kind, t, v⟩ := by
  unfold keyword? at h
  split_ifs at h <;> cases h <;> simp [Delimited]

theorem Delimited.unclaimed (h : Delimited (ofText t)) : Unclaimed t := by
  unfold Token.ofText at h
  split_ifs at h with hm hp
  · simp [Delimited] at h
  · simp [Delimited] at h
  · split at h
    · simp [Delimited] at h
    · rename_i hnumber
      split at h
      · rename_i hkeyword
        exact absurd h (not_delimited_keyword hkeyword 0)
      · rename_i hkeyword
        split at h
        · simp [Delimited] at h
        · rename_i hlabel
          exact ⟨by simpa using hm, by simpa using hp, hnumber, hkeyword, hlabel⟩

theorem not_delimited_ofPlain (t : Text) : ¬ Delimited (ofPlain t) := by
  unfold ofPlain
  split_ifs <;> simp [Delimited]

theorem contents?_ofDelimited (h : Delimited (ofDelimited t)) :
    contents? (ofDelimited t).kind t = some (ofDelimited t).text := by
  unfold ofDelimited at h ⊢
  split
  · assumption
  · rename_i hq
    split
    · assumption
    · rename_i hb
      split
      · assumption
      · rename_i hp
        rw [hq] at h
        dsimp only at h
        rw [hb] at h
        dsimp only at h
        rw [hp] at h
        exact absurd h (not_delimited_ofPlain t)

theorem contents?_ofText (h : Delimited (ofText t)) :
    contents? (ofText t).kind t = some (ofText t).text := by
  have htext := h.unclaimed.ofText
  rw [htext] at h ⊢
  exact contents?_ofDelimited h

/-- The token has all of its text exactly if the delimiters end at the last byte and not before. -/
theorem encloses_iff_proper (h : Delimited (ofText t)) :
    Encloses t (ofText t) ↔ Proper (ofText t).kind t := by
  have hcontents := contents?_ofText h
  constructor
  · rintro ⟨o, c, hoc, ht⟩
    exact proper_of_contents? hcontents hoc ht
  · intro hproper
    obtain ⟨s, o, c, hs, hoc, ht⟩ := contents?_of_proper hproper
    obtain rfl : (ofText t).text = s := Option.some.inj (hcontents.symm.trans hs)
    exact ⟨o, c, hoc, ht⟩

/-! Texts that start with a delimiter. -/

theorem isDigit_of_digit? {b : UInt8} {d : Nat} (h : Numeral.digit? b = some d) (hd : d < 10) :
    Text.isDigit b = true := by
  unfold Numeral.digit? at h
  split_ifs at h with hdigit hlower hupper
  · exact hdigit
  · have := UInt8.le_iff_toNat_le.mp hlower.1
    obtain rfl := Option.some.inj h
    simp at this
    omega
  · have := UInt8.le_iff_toNat_le.mp hupper.1
    obtain rfl := Option.some.inj h
    simp at this
    omega

/-- A number starts with a digit or a sign. -/
theorem head_of_read? {b : UInt8} {v : UInt16} (h : Numeral.read? (b :: t) = some v) :
    Text.isDigit b = true ∨ b = 43 ∨ b = 45 := by
  unfold Numeral.read? at h
  cases hv : Numeral.value? (b :: t) with
  | none => simp [hv] at h
  | some n =>
    cases Numeral.denotes_of_value? hv with
    | hex | octal => exact .inl rfl
    | plus => exact .inr (.inl rfl)
    | minus => exact .inr (.inr rfl)
    | decimal hdigits =>
      obtain ⟨c, cs, d, hcons, hd, hlt⟩ := hdigits.exists_cons
      rw [(List.cons.inj hcons).1]
      exact .inl (isDigit_of_digit? hd hlt)

theorem head_of_mnemonic {b : UInt8} {m : Mnemonic} (h : Mnemonic.ofName? (b :: t) = some m) :
    Text.isNameStart b = true := by
  have hall : Mnemonic.all.all (·.name.head?.any Text.isNameStart) = true := by decide +kernel
  have hm := List.all_eq_true.mp hall m (List.mem_of_find?_eq_some h)
  have hname : m.name = b :: t := by simpa using List.find?_some h
  simpa [hname] using hm

theorem head_of_pseudo {b : UInt8} {op : PseudoOp} (h : PseudoOp.ofName? (b :: t) = some op) :
    Text.isNameStart b = true := by
  have hall : PseudoOp.all.all (·.name.head?.any Text.isNameStart) = true := by decide +kernel
  have hop := List.all_eq_true.mp hall op (List.mem_of_find?_eq_some h)
  have hname : op.name = b :: t := by simpa using List.find?_some h
  simpa [hname] using hop

theorem head_of_keyword {b : UInt8} (h : keyword? (b :: t) = some kind) :
    Text.isNameStart b = true ∨ b = 46 := by
  unfold keyword? at h
  split_ifs at h with h1 h2 h3 h4 h5
  · exact .inr (Option.some.inj (congrArg List.head? h1))
  · exact .inr (Option.some.inj (congrArg List.head? h2))
  · exact .inr (Option.some.inj (congrArg List.head? h3))
  · rw [(Option.some.inj (congrArg List.head? h4) : b = 112)]
    exact .inl rfl
  · rw [(Option.some.inj (congrArg List.head? h5) : b = 101)]
    exact .inl rfl

theorem unclaimed_of_head {b : UInt8} (hb : b = 34 ∨ b = 39 ∨ b = 91 ∨ b = 40) (t : Text) :
    Unclaimed (b :: t) := by
  have hclass : Text.isNameStart b = false ∧ Text.isDigit b = false ∧ b ≠ 43 ∧ b ≠ 45 ∧ b ≠ 46 := by
    rcases hb with rfl | rfl | rfl | rfl <;> decide
  obtain ⟨hname, hdigit, hplus, hminus, hdot⟩ := hclass
  refine ⟨?_, ?_, ?_, ?_, ?_⟩
  · rw [Option.eq_none_iff_forall_ne_some]
    intro m hm
    exact absurd (head_of_mnemonic hm) (by simp [hname])
  · rw [Option.eq_none_iff_forall_ne_some]
    intro op hop
    exact absurd (head_of_pseudo hop) (by simp [hname])
  · rw [Option.eq_none_iff_forall_ne_some]
    intro v hv
    exact absurd (head_of_read? hv) (by simp [hdigit, hplus, hminus])
  · rw [Option.eq_none_iff_forall_ne_some]
    intro k hk
    exact absurd (head_of_keyword hk) (by simp [hname, hdot])
  · simp [labelName?, Text.isWordByte, hname, hdigit]

/-- A text between quotes is a string up to the first quote inside it. -/
theorem ofText_quote {u : Text} (hq : q = 34 ∨ q = 39) (hu : 10 ∉ u) :
    ofText (q :: (u ++ [q])) = ⟨.string, Text.before q u, (Text.before q u).length⟩ := by
  have hsplit : ∃ post, u ++ [q] = Text.before q u ++ q :: post := by
    by_cases hin : q ∈ u
    · obtain ⟨xs, ys, rfl, hxs⟩ := List.eq_append_cons_of_mem hin
      rw [Text.before_append_sep ys hxs]
      exact ⟨ys ++ [q], by simp⟩
    · rw [Text.before_of_notMem hin]
      exact ⟨[], rfl⟩
  obtain ⟨post, hpost⟩ := hsplit
  have hline : 10 ∉ Text.before q u := fun hm => hu ((List.takeWhile_sublist _).subset hm)
  have hfirst : quoted? (q :: (u ++ [q])) = some (Text.before q u) := by
    rw [hpost]
    exact quoted?_of_quote hq ⟨Text.notMem_before q u, hline⟩ post
  have hhead : q = 34 ∨ q = 39 ∨ q = 91 ∨ q = 40 := by
    rcases hq with hq | hq
    · exact .inl hq
    · exact .inr (.inl hq)
  rw [(unclaimed_of_head hhead _).ofText, ofDelimited, hfirst]

theorem ne_delimiter {x : UInt8} (h : isSeparator x = true ∨ Text.isWordByte x = true) :
    x ≠ 34 ∧ x ≠ 39 ∧ x ≠ 91 ∧ x ≠ 40 := by
  refine ⟨?_, ?_, ?_, ?_⟩ <;> rintro rfl <;> exact absurd h (by decide)

theorem quoted?_eq_none_of_append {pre post : Text} (h : quoted? (pre ++ (t ++ post)) = none) :
    quoted? t = none := by
  rw [Option.eq_none_iff_forall_ne_some]
  intro s hs
  obtain ⟨before, q, after, hq, hin, rfl⟩ := quoted?_some hs
  have hfound : ∀ x : Text, quoted? (x ++ q :: (s ++ q :: (after ++ post))) ≠ none := by
    intro x
    induction x with
    | nil =>
      rw [List.nil_append, quoted?_of_quote hq hin]
      exact Option.some_ne_none s
    | cons b bs ih =>
      rw [List.cons_append, quoted?]
      split_ifs
      · rw [ne_eq, Option.or_eq_none_iff]
        exact fun hnone => ih hnone.2
      · exact ih
  exact hfound (pre ++ before) (by simpa using h)

theorem contents?_eq_none (kind : TokenKind) (h : ∀ d ∈ delimiters kind, d.1 ∉ t) :
    contents? kind t = none := by
  rw [Option.eq_none_iff_forall_ne_some]
  intro s hs
  obtain ⟨pre, o, c, post, hoc, rfl⟩ := contents?_some hs
  exact h (o, c) hoc (by simp)

theorem ofText_bracket {u : Text} (h : quoted? (91 :: (u ++ [93])) = none) :
    ofText (91 :: (u ++ [93])) = ⟨.size, u, 0⟩ := by
  rw [(unclaimed_of_head (.inr (.inr (.inl rfl))) _).ofText, ofDelimited, h, bracketed?_of_bracket]

theorem ofText_parenthesis {u : Text} (hu : u.all Text.isWordByte = true) :
    ofText (40 :: (u ++ [41])) = ⟨.indirection, u, 0⟩ := by
  have hne : ∀ x ∈ 40 :: (u ++ [41]), x ≠ 34 ∧ x ≠ 39 ∧ x ≠ 91 := by
    intro x hx
    simp only [List.mem_cons, List.mem_append, List.not_mem_nil, or_false] at hx
    rcases hx with rfl | hx | rfl
    · decide
    · obtain ⟨hdouble, hsingle, hbracket, -⟩ := ne_delimiter (.inr (List.all_eq_true.mp hu x hx))
      exact ⟨hdouble, hsingle, hbracket⟩
    · decide
  have hquoted : quoted? (40 :: (u ++ [41])) = none := by
    change contents? .string (40 :: (u ++ [41])) = none
    refine contents?_eq_none .string fun d hd hm => ?_
    rcases (by simpa [delimiters] using hd : d = (34, 34) ∨ d = (39, 39)) with rfl | rfl
    · exact (hne _ hm).1 rfl
    · exact (hne _ hm).2.1 rfl
  have hbracketed : bracketed? (40 :: (u ++ [41])) = none := by
    change contents? .size (40 :: (u ++ [41])) = none
    refine contents?_eq_none .size fun d hd hm => ?_
    obtain rfl := List.mem_singleton.mp hd
    exact (hne _ hm).2.2 rfl
  rw [(unclaimed_of_head (.inr (.inr (.inr rfl))) _).ofText, ofDelimited, hquoted, hbracketed,
    parenthesised?_of_parenthesis hu]

/-- The token of a text with delimiters is the token of a part of it, the delimiters and what they
enclose. -/
theorem exists_part (h : Delimited (ofText t)) :
    ∃ pre p post, t = pre ++ (p ++ post) ∧ Encloses p (ofText t) ∧ ofText p = ofText t := by
  have htext := h.unclaimed.ofText
  rw [htext] at h ⊢
  unfold ofDelimited at h ⊢
  cases hq : quoted? t with
  | some s =>
    obtain ⟨pre, q, post, hquote, hs, rfl⟩ := quoted?_some hq
    refine ⟨pre, q :: (s ++ [q]), post, by simp, ⟨q, q, ?_, rfl⟩, ?_⟩
    · rcases hquote with rfl | rfl <;> simp [delimiters]
    · rw [ofText_quote hquote hs.2, Text.before_of_notMem hs.1]
  | none =>
    cases hb : bracketed? t with
    | some s =>
      obtain ⟨pre, post, rfl⟩ := bracketed?_some hb
      refine ⟨pre, 91 :: (s ++ [93]), post, by simp, ⟨91, 93, by simp [delimiters], rfl⟩, ?_⟩
      have hinfix : quoted? (pre ++ (91 :: (s ++ [93]) ++ post)) = none := by simpa using hq
      exact ofText_bracket (quoted?_eq_none_of_append hinfix)
    | none =>
      cases hp : parenthesised? t with
      | some s =>
        have hall := parenthesised?_all hp
        obtain ⟨pre, post, rfl⟩ := parenthesised?_some hp
        refine ⟨pre, 40 :: (s ++ [41]), post, by simp, ⟨40, 41, by simp [delimiters], rfl⟩, ?_⟩
        exact ofText_parenthesis hall
      | none =>
        simp only [hq, hb, hp] at h
        exact absurd h (not_delimited_ofPlain t)

/-- How a piece of a line can be more than its token: another quote of the same kind stands behind
a string, a string stands in brackets, or other bytes are stuck to the delimiters. -/
inductive Loss (p : Text) (k : Token) : Prop where
  | quotes {q : UInt8} {u : Text} (hq : q = 34 ∨ q = 39) (hu : q ∈ u) (hp : p = q :: (u ++ [q]))
      (hkind : k.kind = .string) (htext : k.text = Text.before q u)
  | brackets {u : Text} (hp : p = 91 :: (u ++ [93])) (hkind : k.kind = .string)
  | stuck {pre part post : Text} (hp : p = pre ++ (part ++ post)) (hpart : Encloses part k)
      (hmore : pre ++ post ≠ []) (hrun : ∀ x ∈ p, isSeparator x = false)

theorem Loss.not_encloses {k : Token} (h : Loss p k) : ¬ Encloses p k := by
  rintro ⟨o, c, hoc, henclosed⟩
  cases h with
  | @quotes q u hq hu hp hkind htext =>
    -- The text of the token would have all the quotes, but it ends before the first of them.
    have hall : u = k.text := by
      have htail := (List.cons.inj (hp.symm.trans henclosed)).2
      exact List.append_inj_left' htail rfl
    exact Text.notMem_before q u (htext ▸ hall ▸ hu)
  | brackets hp hkind =>
    have hopen : 91 = o := (List.cons.inj (hp.symm.trans henclosed)).1
    subst hopen
    rw [hkind] at hoc
    simp [delimiters] at hoc
  | @stuck pre part post hp hpart hmore hrun =>
    obtain ⟨o', c', -, rfl⟩ := hpart
    have hlen := congrArg List.length (hp.symm.trans henclosed)
    simp only [List.length_append, List.length_cons, List.length_nil] at hlen
    exact hmore (List.length_eq_zero_iff.mp (by simp only [List.length_append]; omega))

theorem exists_delimiter (h : Delimited (ofText t)) :
    ∃ o ∈ t, o = 34 ∨ o = 39 ∨ o = 91 ∨ o = 40 := by
  obtain ⟨pre, o, c, post, hoc, ht⟩ := contents?_some (contents?_ofText h)
  exact ⟨o, by rw [ht]; simp, fst_of_mem_delimiters hoc⟩

theorem encloses_or_loss_of_quote {u : Text} (hq : q = 34 ∨ q = 39) (hu : 10 ∉ u) :
    Encloses (q :: (u ++ [q])) (ofText (q :: (u ++ [q]))) ∨
      Loss (q :: (u ++ [q])) (ofText (q :: (u ++ [q]))) := by
  have htext := ofText_quote hq hu
  by_cases hin : q ∈ u
  · right
    rw [htext]
    exact .quotes hq hin rfl rfl rfl
  · left
    have hd : Delimited (ofText (q :: (u ++ [q]))) := by
      rw [htext]
      exact .inl rfl
    rw [encloses_iff_proper hd, htext]
    exact .string hq hin hu

theorem encloses_or_loss_of_bracket (u : Text) :
    Encloses (91 :: (u ++ [93])) (ofText (91 :: (u ++ [93]))) ∨
      Loss (91 :: (u ++ [93])) (ofText (91 :: (u ++ [93]))) := by
  cases hq : quoted? (91 :: (u ++ [93])) with
  | some s =>
    rw [(unclaimed_of_head (.inr (.inr (.inl rfl))) (u ++ [93])).ofText, ofDelimited, hq]
    exact .inr (.brackets rfl rfl)
  | none =>
    rw [ofText_bracket hq]
    exact .inl ⟨91, 93, List.mem_singleton.mpr rfl, rfl⟩

theorem encloses_or_loss_of_run (hd : Delimited (ofText p))
    (hrun : ∀ x ∈ p, isSeparator x = false) :
    Encloses p (ofText p) ∨ Loss p (ofText p) := by
  obtain ⟨pre, part, post, hp, hpart, -⟩ := exists_part hd
  by_cases hmore : pre ++ post = []
  · obtain ⟨rfl, rfl⟩ := List.append_eq_nil_iff.mp hmore
    obtain rfl : p = part := by simpa using hp
    exact .inl hpart
  · exact .inr (.stuck hp hpart hmore hrun)

/-- A piece of a line that is more than its token is so in one of three ways. -/
theorem encloses_or_loss {line : Text} (hp : p ∈ trimmedPieces line) (hd : Delimited (ofText p)) :
    Encloses p (ofText p) ∨ Loss p (ofText p) := by
  obtain ⟨p', r, hpiece, rfl⟩ := exists_of_mem_trimmedPieces hp
  -- A comma, an operator or a signed number has no byte of a delimiter.
  have hno : (∀ x ∈ p', x ≠ 34 ∧ x ≠ 39 ∧ x ≠ 91 ∧ x ≠ 40) → False := by
    intro hx
    obtain ⟨o, ho, hcases⟩ := exists_delimiter hd
    have := hx o (Text.mem_of_mem_trim ho)
    tauto
  cases hpiece with
  | @enclosed b c u _ hb hu hr =>
    rw [trim_enclosed hb]
    rcases closer?_eq_some_iff.mp hb with ⟨rfl, rfl⟩ | ⟨rfl, rfl⟩ | ⟨rfl, rfl⟩
    · exact encloses_or_loss_of_bracket u
    · exact encloses_or_loss_of_quote (.inl rfl) hu
    · exact encloses_or_loss_of_quote (.inr rfl) hu
  | @run b u _ hb hopen hu hr =>
    refine encloses_or_loss_of_run hd fun x hx => ?_
    rcases List.mem_cons.mp (Text.mem_of_mem_trim hx) with rfl | hx
    · exact hb
    · exact hu x hx
  | @mark b _ hb =>
    refine (hno fun x hx => ?_).elim
    rw [List.mem_singleton.mp hx]
    exact ne_delimiter (.inl (isSeparator_iff.mpr (.inl hb)))
  | @signed b s ds xs _ hb hs hds hend hxs =>
    refine (hno fun x hx => ?_).elim
    simp only [List.mem_cons, List.mem_append] at hx
    rcases hx with rfl | rfl | hx | hx
    · exact ne_delimiter (.inl (isSeparator_iff.mpr (.inr hb)))
    · rcases hs with rfl | rfl <;> decide
    · exact ne_delimiter (.inr (isWordByte_of_isDigit (hds x hx)))
    · exact ne_delimiter (.inr (isWordByte_of_mem_hexTail hxs x hx))

theorem loss_iff_not_encloses {line : Text} (hp : p ∈ trimmedPieces line)
    (hd : Delimited (ofText p)) : Loss p (ofText p) ↔ ¬ Encloses p (ofText p) :=
  ⟨Loss.not_encloses, (encloses_or_loss hp hd).resolve_left⟩

end BarrelAsm.Token
