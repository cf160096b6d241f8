import BarrelAsm.Numeral
import Mathlib.Data.Nat.Digits.Defs
import Mathlib.Tactic.SplitIfs

/-! Numbers and their digits: what a literal denotes, and hexadecimal numbers read back. -/
namespace BarrelAsm

namespace Numeral

variable {base n m : Nat} {t : Text}

/-- The bytes are one or more digits of the base, the most significant first, and `n` is the number
that they stand for. -/
def Digits (base : Nat) (t : Text) (n : Nat) : Prop :=
  t ≠ [] ∧ ∃ ds : List Nat, t.map digit? = ds.map some ∧ (∀ d ∈ ds, d < base) ∧
    n = Nat.ofDigits base ds.reverse

theorem pushDigit?_eq_some_iff {b : UInt8} :
    pushDigit? base n b = some m ↔ ∃ d, digit? b = some d ∧ d < base ∧ m = n * base + d := by
  unfold pushDigit?
  cases digit? b with
  | none => simp
  | some d =>
    by_cases hd : d < base
    · simp [hd, eq_comm]
    · simp [hd]

theorem foldlM_pushDigit?_eq_some_iff :
    t.foldlM (pushDigit? base) n = some m ↔
      ∃ ds : List Nat, t.map digit? = ds.map some ∧ (∀ d ∈ ds, d < base) ∧
        m = ds.foldl (fun n d => d + base * n) n := by
  induction t generalizing n with
  | nil =>
    constructor
    · rintro ⟨⟩
      exact ⟨[], rfl, by simp, rfl⟩
    · rintro ⟨ds, hds, -, rfl⟩
      obtain rfl : ds = [] := by simpa using hds
      rfl
  | cons b bs ih =>
    rw [List.foldlM_cons, Option.bind_eq_bind, Option.bind_eq_some_iff]
    constructor
    · rintro ⟨k, hk, hm⟩
      obtain ⟨d, hd, hlt, rfl⟩ := pushDigit?_eq_some_iff.mp hk
      obtain ⟨ds, hds, hall, rfl⟩ := ih.mp hm
      refine ⟨d :: ds, by simp [hd, hds], by simpa using ⟨hlt, hall⟩, ?_⟩
      rw [List.foldl_cons, Nat.add_comm d, Nat.mul_comm base]
    · rintro ⟨_ | ⟨d, ds⟩, hds, hall, rfl⟩
      · simp at hds
      · obtain ⟨hd, hds⟩ := List.cons.inj hds
        obtain ⟨hlt, hall⟩ := List.forall_mem_cons.mp hall
        refine ⟨d + base * n, pushDigit?_eq_some_iff.mpr ⟨d, hd, hlt, ?_⟩,
          ih.mpr ⟨ds, hds, hall, rfl⟩⟩
        rw [Nat.add_comm d, Nat.mul_comm base]

theorem ofDigits?_eq_some_iff : ofDigits? base t = some n ↔ Digits base t n := by
  have hfold : ∀ ds : List Nat,
      Nat.ofDigits base ds.reverse = ds.foldl (fun n d => d + base * n) 0 := by
    intro ds
    rw [Nat.ofDigits_eq_foldr, List.foldr_reverse]
    rfl
  unfold ofDigits? Digits
  cases t with
  | nil => simp
  | cons b bs =>
    simp only [List.isEmpty_cons, Bool.false_eq_true, if_false, foldlM_pushDigit?_eq_some_iff,
      hfold, ne_eq, reduceCtorEq, not_false_eq_true, true_and]

/-- What a literal denotes: hexadecimal after `0x`, octal after `0`, else decimal with an optional
sign. -/
inductive Denotes : Text → Int → Prop where
  | hex {x : UInt8} {t : Text} {n : Nat} (hx : x = 120 ∨ x = 88) (h : Digits 16 t n) :
      Denotes (48 :: x :: t) n
  | octal {t : Text} {n : Nat} (h : Digits 8 t n) : Denotes (48 :: t) n
  | decimal {t : Text} {n : Nat} (h : Digits 10 t n) (h0 : t.head? ≠ some 48 ∨ t = [48]) :
      Denotes t n
  | plus {t : Text} {n : Nat} (h : Digits 10 t n) : Denotes (43 :: t) n
  | minus {t : Text} {n : Nat} (h : Digits 10 t n) : Denotes (45 :: t) (-n)

theorem Digits.exists_cons (h : Digits base t n) :
    ∃ b bs d, t = b :: bs ∧ digit? b = some d ∧ d < base := by
  obtain ⟨hne, ds, hds, hall, -⟩ := h
  cases t with
  | nil => exact absurd rfl hne
  | cons b bs =>
    cases ds with
    | nil => simp at hds
    | cons d ds => exact ⟨b, bs, d, rfl, (List.cons.inj hds).1, hall d List.mem_cons_self⟩

theorem denotes_of_value? {v : Int} (h : value? t = some v) : Denotes t v := by
  unfold value? at h
  split at h <;> obtain ⟨n, hn, rfl⟩ := Option.map_eq_some_iff.mp h <;>
    rw [ofDigits?_eq_some_iff] at hn
  · exact .hex (.inl rfl) hn
  · exact .hex (.inr rfl) hn
  · exact .octal hn
  · exact .plus hn
  · exact .minus hn
  · rename_i h0 _ _
    refine .decimal hn ?_
    obtain ⟨b, bs, d, rfl, -, -⟩ := hn.exists_cons
    by_cases hb : b = 48
    · subst b
      cases bs with
      | nil => exact .inr rfl
      | cons c cs => exact absurd rfl (h0 c cs)
    · exact .inl (by simpa using hb)

theorem value?_of_denotes {v : Int} (h : Denotes t v) : value? t = some v := by
  cases h with
  | @hex x t n hx h =>
    have hd := ofDigits?_eq_some_iff.mpr h
    rcases hx with rfl | rfl <;> simp [value?, hd]
  | @octal t n h =>
    have hd := ofDigits?_eq_some_iff.mpr h
    obtain ⟨b, bs, d, rfl, hb, hlt⟩ := h.exists_cons
    -- An octal digit is no `x`, which would have been tried first.
    have hx : b ≠ 120 ∧ b ≠ 88 := by
      constructor
      all_goals
        rintro rfl
        cases hb
        exact absurd hlt (by decide)
    simp [value?, hx.1, hx.2, hd]
  | @decimal t n h h0 =>
    have hd := ofDigits?_eq_some_iff.mpr h
    obtain ⟨b, bs, d, rfl, hb, hlt⟩ := h.exists_cons
    have hsign : b ≠ 43 ∧ b ≠ 45 := by
      constructor
      all_goals
        rintro rfl
        cases hb
    rcases h0 with h0 | h0
    · have h48 : b ≠ 48 := by simpa using h0
      simp [value?, h48, hsign.1, hsign.2, hd]
    · rw [h0] at hd ⊢
      simp [value?, hd]
  | plus h => simp [value?, ofDigits?_eq_some_iff.mpr h]
  | minus h => simp [value?, ofDigits?_eq_some_iff.mpr h]

theorem value?_eq_some_iff {v : Int} : value? t = some v ↔ Denotes t v :=
  ⟨denotes_of_value?, value?_of_denotes⟩

end Numeral

namespace Text

open Numeral

/-- The number that hexadecimal digits stand for, with a minus sign in front or not. -/
def hexValue? : Text → Option Int
  | 45 :: ds => (ofDigits? 16 ds).map fun n => -Int.ofNat n
  | ds => (ofDigits? 16 ds).map Int.ofNat

theorem digit?_digitChar :
    ∀ d < 16, digit? (Nat.digitChar d).toUInt8 = some d ∧ isHexDigit (Nat.digitChar d).toUInt8 := by
  decide

theorem foldlM_toDigits (n : Nat) :
    ((Nat.toDigits 16 n).map Char.toUInt8).foldlM (pushDigit? 16) 0 = some n := by
  induction n using Nat.strongRecOn with
  | ind n ih =>
    by_cases hn : n < 16
    · have hd : pushDigit? 16 0 (Nat.digitChar n).toUInt8 = some n :=
        pushDigit?_eq_some_iff.mpr ⟨n, (digit?_digitChar n hn).1, hn, by omega⟩
      simp [Nat.toDigits_of_lt_base hn, hd]
    · have hlt : n % 16 < 16 := Nat.mod_lt _ (by decide)
      have hd : pushDigit? 16 (n / 16) (Nat.digitChar (n % 16)).toUInt8 = some n :=
        pushDigit?_eq_some_iff.mpr ⟨n % 16, (digit?_digitChar _ hlt).1, hlt, by omega⟩
      rw [Nat.toDigits_of_base_le (by decide) (by omega), List.map_append, List.foldlM_append,
        ih (n / 16) (by omega)]
      simp [hd]

theorem all_toDigits (n : Nat) : ((Nat.toDigits 16 n).map Char.toUInt8).all isHexDigit = true := by
  induction n using Nat.strongRecOn with
  | ind n ih =>
    by_cases hn : n < 16
    · simp [Nat.toDigits_of_lt_base hn, (digit?_digitChar n hn).2]
    · have hlt : n % 16 < 16 := Nat.mod_lt _ (by decide)
      rw [Nat.toDigits_of_base_le (by decide) (by omega), List.map_append, List.all_append,
        ih (n / 16) (by omega)]
      simp [(digit?_digitChar _ hlt).2]

theorem foldlM_zeros (k : Nat) (t : Text) :
    (List.replicate k 48 ++ t).foldlM (pushDigit? 16) 0 = t.foldlM (pushDigit? 16) 0 := by
  induction k with
  | zero => rfl
  | succ k ih =>
    have hzero : pushDigit? 16 0 48 = some 0 := by decide
    rw [List.replicate_succ, List.cons_append, List.foldlM_cons, hzero]
    exact ih

theorem ofDigits?_hexNat (width n : Nat) : ofDigits? 16 (hexNat width n) = some n := by
  have hne : (hexNat width n).isEmpty = false := by
    simp [hexNat, padLeft, Nat.toDigits_ne_nil]
  rw [ofDigits?, hne, hexNat, padLeft]
  exact (foldlM_zeros _ _).trans (foldlM_toDigits n)

theorem all_hexNat (width n : Nat) : (hexNat width n).all isHexDigit = true := by
  have hzero : isHexDigit 48 = true := by decide
  rw [hexNat, padLeft, List.all_append, all_toDigits, List.all_replicate, hzero]
  simp

theorem length_hexNat {width n : Nat} (h0 : 0 < width) (h : n < 16 ^ width) :
    (hexNat width n).length = width := by
  have hle := (Nat.length_toDigits_le_iff (by decide) h0).mpr h
  rw [hexNat, padLeft, List.length_append, List.length_replicate, List.length_map]
  omega

/-- So many hexadecimal digits and nothing else. -/
def HexDigits (width : Nat) (t : Text) : Prop := t.length = width ∧ t.all isHexDigit = true

theorem hexDigits_hexNat {width n : Nat} (h0 : 0 < width) (h : n < 16 ^ width) :
    HexDigits width (hexNat width n) :=
  ⟨length_hexNat h0 h, all_hexNat width n⟩

theorem hexValue?_of_all {t : Text} (h : t.all isHexDigit = true) :
    hexValue? t = (ofDigits? 16 t).map Int.ofNat := by
  unfold hexValue?
  split
  · simp [isHexDigit, isDigit] at h
  · rfl

theorem hexValue?_hexNat (width n : Nat) : hexValue? (hexNat width n) = some (n : Int) := by
  rw [hexValue?_of_all (all_hexNat _ _), ofDigits?_hexNat]
  rfl

/-- Whatever its sign and its size, a number in hexadecimal can be read back. -/
theorem hexValue?_hexInt (width : Nat) (i : Int) : hexValue? (hexInt width i) = some i := by
  unfold hexInt
  split_ifs with hi
  · rw [hexValue?, ofDigits?_hexNat]
    simp only [Option.map_some, Option.some.injEq, Int.ofNat_eq_natCast]
    omega
  · rw [hexValue?_hexNat, Option.some.injEq]
    omega

end Text
end BarrelAsm
