import BarrelAsm.Assembly.Statement
import Mathlib.Tactic.SplitIfs

/-! What the kind of a token says about its text. -/
namespace BarrelAsm

namespace Text

/-- The byte of a dot is in no name and in no label. -/
theorem dot_notMem_of_all {t : Text} (h : t.all isWordByte = true) : (46 : UInt8) ∉ t := by
  intro hm
  exact absurd (List.all_eq_true.mp h 46 hm) (by decide)

theorem all_isWordByte_of_isName {t : Text} (h : isName t = true) : t.all isWordByte = true := by
  cases t with
  | nil => rfl
  | cons b bs =>
    obtain ⟨hb, hbs⟩ := (Bool.and_eq_true _ _).mp h
    rw [List.all_cons, hbs, Bool.and_true]
    unfold isWordByte
    rw [hb, Bool.true_or]

end Text

namespace Token

/-- Mnemonics are in their tables, identifiers are names and labels are words. -/
def Lawful (t : Token) : Prop :=
  match t.kind with
  | .instruction => (Mnemonic.ofName? t.text).isSome
  | .pseudo => (PseudoOp.ofName? t.text).isSome
  | .identifier => Text.isName t.text
  | .label => t.text.all Text.isWordByte
  | _ => True

theorem lawful_ofPlain (t : Text) : (ofPlain t).Lawful := by
  unfold ofPlain
  split_ifs with hn
  · exact hn
  all_goals trivial

theorem lawful_ofDelimited (t : Text) : (ofDelimited t).Lawful := by
  unfold ofDelimited
  split
  · trivial
  · split
    · trivial
    · split
      · trivial
      · exact lawful_ofPlain t

theorem keyword?_lawful {t : Text} {k : TokenKind} (h : keyword? t = some k) :
    (⟨k, t, 0⟩ : Token).Lawful := by
  unfold keyword? at h
  split_ifs at h <;> cases h <;> trivial

theorem labelName?_all {t w : Text} (h : labelName? t = some w) : w.all Text.isWordByte = true := by
  unfold labelName? at h
  dsimp only at h
  split_ifs at h
  cases h
  exact List.all_takeWhile

theorem lawful_ofText (t : Text) : (ofText t).Lawful := by
  unfold ofText
  split_ifs with hm hp
  · exact hm
  · exact hp
  · split
    · trivial
    · split
      · exact keyword?_lawful (by assumption)
      · split
        · exact labelName?_all (by assumption)
        · exact lawful_ofDelimited t

theorem lawful_of_mem_tokenize {line : Text} {t : Token} (h : t ∈ tokenize line) : t.Lawful := by
  obtain ⟨piece, -, rfl⟩ := List.mem_map.mp h
  exact lawful_ofText piece

end Token

namespace Statement

variable {text : Text} {s : Statement}

theorem lawful_body (hs : ofLine? text = some s) : ∀ t ∈ s.body, t.Lawful := by
  unfold ofLine? at hs
  dsimp only at hs
  split_ifs at hs
  cases hs
  intro t ht
  exact Token.lawful_of_mem_tokenize ((List.dropWhile_sublist _).subset ht)

theorem dot_notMem_labels (hs : ofLine? text = some s) : ∀ l ∈ s.labels, (46 : UInt8) ∉ l := by
  unfold ofLine? at hs
  dsimp only at hs
  split_ifs at hs
  cases hs
  intro l hl
  obtain ⟨t, ht, rfl⟩ := List.mem_map.mp hl
  have hk : t.kind = .label := by
    simpa using List.all_eq_true.mp List.all_takeWhile t ht
  have hw := Token.lawful_of_mem_tokenize ((List.takeWhile_sublist _).subset ht)
  rw [Token.Lawful, hk] at hw
  exact Text.dot_notMem_of_all hw

end Statement
end BarrelAsm
