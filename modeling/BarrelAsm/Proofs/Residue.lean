import BarrelAsm.Proofs.DataSegment
import BarrelAsm.Proofs.Form
import Mathlib.Data.Int.ModEq

/-! The exact values of expressions. Numbers are cut to 16 bits when they are read, and operations
wrap at 64 bits; where nothing is divided, the low 16 bits of the result show neither. -/
namespace BarrelAsm

namespace Expr

theorem Operator.token_injective : Function.Injective token := by
  intro o o' h
  cases o <;> cases o' <;> first | rfl | exact absurd h (by decide)

namespace Chain

theorem links_injective : Function.Injective links := by
  intro es
  induction es with
  | nil =>
    intro es' h
    cases es' with
    | nil => rfl
    | cons e' es' => cases h
  | cons e es ih =>
    intro es' h
    cases es' with
    | nil => cases h
    | cons e' es' =>
      obtain ⟨ho, h⟩ := List.cons.inj h
      obtain ⟨ht, h⟩ := List.cons.inj h
      rw [ih h, Prod.ext (Operator.token_injective ho) ht]

theorem tokens_injective : Function.Injective tokens := by
  rintro ⟨first, rest⟩ ⟨first', rest'⟩ h
  obtain ⟨hfirst, hlinks⟩ := List.cons.inj h
  have hrest : rest = rest' := links_injective hlinks
  rw [show first = first' from hfirst, hrest]

/-- Values that tokens have one each are had by one chain only. -/
theorem Rel.unique {R : Token → Int → Prop} {c : Chain Token} {d d' : Chain Int}
    (hR : Relator.RightUnique R) (h : c.Rel R d) (h' : c.Rel R d') : d = d' := by
  obtain ⟨first, rest⟩ := d
  obtain ⟨first', rest'⟩ := d'
  have hlink : Relator.RightUnique fun (x : Operator × Token) (y : Operator × Int) =>
      x.1 = y.1 ∧ R x.2 y.2 :=
    fun _ _ _ hy hz => Prod.ext (hy.1.symm.trans hz.1) (hR hy.2 hz.2)
  have hfirst : first = first' := hR h.1 h'.1
  have hrest : rest = rest' := hlink.forall₂ h.2 h'.2
  rw [hfirst, hrest]

end Chain
end Expr

namespace Scope

open BarrelAsm.Expr

variable {s : Scope} {t : Token} {e : List Token} {v z n : Int}

theorem Resolves.unique {name : Text} {sym sym' : Symbol} (h : s.Resolves name sym)
    (h' : s.Resolves name sym') : sym = sym' := by
  rw [← lookup_ok_iff] at h h'
  exact Except.ok.inj (h.symm.trans h')

theorem Counts.unique {literal : Token → Int → Prop} (hl : Relator.RightUnique literal) :
    Relator.RightUnique (s.Counts literal) := by
  intro t v w h h'
  cases h with
  | number hk hv =>
    cases h' with
    | number _ hw => exact hl hv hw
    | const hk' => simp [hk] at hk'
    | place hk' => simp [hk] at hk'
  | const hk hs hc =>
    cases h' with
    | number hk' => simp [hk] at hk'
    | const _ hs' => rw [hs.unique hs']
    | place _ hs' hc' => simp [← hs.unique hs', hc] at hc'
  | place hk hs hc =>
    cases h' with
    | number hk' => simp [hk] at hk'
    | const _ hs' hc' => simp [hs.unique hs', hc'] at hc
    | place _ hs' => rw [hs.unique hs']

/-- The token counts with all that is written, however large a number is. -/
def CountsFully (s : Scope) : Token → Int → Prop := s.Counts fun t v => Numeral.Denotes t.text v

/-- The exact value of an expression, strictly from left to right. -/
def Amounts (s : Scope) (e : List Token) (z : Int) : Prop :=
  ∃ (c : Chain Token) (d : Chain Int), e = c.tokens ∧ c.Rel s.CountsFully d ∧
    z = d.fold Operator.eval

theorem countsFully_unique : Relator.RightUnique s.CountsFully := by
  refine Counts.unique ?_
  intro t v w hv hw
  rw [← Numeral.value?_eq_some_iff] at hv hw
  exact Option.some.inj (hv.symm.trans hw)

theorem Amounts.unique {y : Int} (h : s.Amounts e y) (h' : s.Amounts e z) : y = z := by
  obtain ⟨c, d, rfl, hd, rfl⟩ := h
  obtain ⟨c', d', hc, hd', rfl⟩ := h'
  rw [← Chain.tokens_injective hc] at hd'
  rw [hd.unique countsFully_unique hd']

end Scope

namespace Assembly

open BarrelAsm.Expr

variable {a b : Assembly} {line : Line} {ts : List Token}

end Assembly
end BarrelAsm
