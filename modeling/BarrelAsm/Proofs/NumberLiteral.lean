import BarrelAsm.Proofs.Arith
import BarrelAsm.Proofs.Numeral
import Mathlib.Data.List.Forall2

/-! Number literals: which texts they are, and what is read from them. A literal is spelled with the
digits of its base, has a value of 32 bits and counts with the low 16 of them. -/
namespace BarrelAsm.Numeral

variable {base n : Nat} {t ds : Text} {v : Int}

/-- The bytes that stand for a digit; letters count in either case. -/
def digitBytes (d : Nat) : List UInt8 :=
  ("0123456789abcdef" : Text)[d]?.toList ++ ("0123456789ABCDEF" : Text)[d]?.toList

theorem digit?_of_mem_digitBytes : ∀ d < 16, ∀ b ∈ digitBytes d, digit? b = some d := by
  decide +kernel

theorem mem_digitBytes_of_digit? {b : UInt8} {d : Nat} (h : digit? b = some d) (hd : d < 16) :
    b ∈ digitBytes d := by
  have hall : ∀ n < 256, ∀ d ∈ digit? (UInt8.ofNat n), d < 16 → UInt8.ofNat n ∈ digitBytes d := by
    decide +kernel
  have hb := hall b.toNat b.toNat_lt d
  rw [UInt8.ofNat_toNat] at hb
  exact hb h hd

/-- The bytes are one or more digits of the base, the most significant first, and `n` is the number
that they spell. -/
def Spells (base : Nat) (t : Text) (n : Nat) : Prop :=
  t ≠ [] ∧ ∃ ds : List Nat, List.Forall₂ (fun b d => b ∈ digitBytes d ∧ d < base) t ds ∧
    n = Nat.ofDigits base ds.reverse

theorem map_digit?_eq_iff (hbase : base ≤ 16) {ds : List Nat} :
    (t.map digit? = ds.map some ∧ ∀ d ∈ ds, d < base) ↔
      List.Forall₂ (fun b d => b ∈ digitBytes d ∧ d < base) t ds := by
  induction t generalizing ds with
  | nil =>
    rw [List.forall₂_nil_left_iff]
    cases ds <;> simp
  | cons b bs ih =>
    cases ds with
    | nil => simp [List.forall₂_nil_right_iff]
    | cons d ds =>
      rw [List.forall₂_cons, ← ih, List.map_cons, List.map_cons, List.cons_eq_cons,
        List.forall_mem_cons]
      constructor
      · rintro ⟨⟨hb, hbs⟩, hd, hds⟩
        exact ⟨⟨mem_digitBytes_of_digit? hb (by omega), hd⟩, hbs, hds⟩
      · rintro ⟨⟨hb, hd⟩, hbs, hds⟩
        exact ⟨⟨digit?_of_mem_digitBytes d (by omega) b hb, hbs⟩, hd, hds⟩

theorem digits_iff_spells (hbase : base ≤ 16) : Digits base t n ↔ Spells base t n := by
  unfold Digits Spells
  simp only [← map_digit?_eq_iff hbase, and_assoc]

/-- An optional sign, and the number `n` with it. -/
inductive Signed : Text → Nat → Int → Prop where
  | nothing (n : Nat) : Signed [] n n
  | plus (n : Nat) : Signed [43] n n
  | minus (n : Nat) : Signed [45] n (-n)

/-- The text is a literal of this value. A text that starts with `0` is hexadecimal or octal, unless
it is the one digit. -/
inductive Literal : Text → Int → Prop where
  | hex {x : UInt8} {ds : Text} {n : Nat} (hx : x = 120 ∨ x = 88) (hds : Spells 16 ds n) :
      Literal (48 :: x :: ds) n
  | octal {ds : Text} {n : Nat} (hds : Spells 8 ds n) : Literal (48 :: ds) n
  | decimal {sign ds : Text} {n : Nat} {v : Int} (hs : Signed sign n v) (hds : Spells 10 ds n)
      (h0 : (sign ++ ds).head? ≠ some 48 ∨ sign ++ ds = [48]) : Literal (sign ++ ds) v

theorem literal_of_denotes (h : Denotes t v) : Literal t v := by
  cases h with
  | hex hx h => exact .hex hx ((digits_iff_spells (by decide)).mp h)
  | octal h => exact .octal ((digits_iff_spells (by decide)).mp h)
  | @decimal _ n h h0 => exact .decimal (.nothing n) ((digits_iff_spells (by decide)).mp h) h0
  | @plus _ n h =>
    exact .decimal (.plus n) ((digits_iff_spells (by decide)).mp h) (.inl (by simp))
  | @minus _ n h =>
    exact .decimal (.minus n) ((digits_iff_spells (by decide)).mp h) (.inl (by simp))

theorem denotes_of_literal (h : Literal t v) : Denotes t v := by
  cases h with
  | hex hx hds => exact .hex hx ((digits_iff_spells (by decide)).mpr hds)
  | octal hds => exact .octal ((digits_iff_spells (by decide)).mpr hds)
  | decimal hs hds h0 =>
    have hdigits := (digits_iff_spells (by decide)).mpr hds
    cases hs with
    | nothing => exact .decimal hdigits h0
    | plus => exact .plus hdigits
    | minus => exact .minus hdigits

theorem value?_eq_some_iff_literal : value? t = some v ↔ Literal t v :=
  value?_eq_some_iff.trans ⟨literal_of_denotes, denotes_of_literal⟩

theorem read?_eq_some_iff {w : UInt16} :
    read? t = some w ↔
      ∃ v, Literal t v ∧ -2 ^ 31 ≤ v ∧ v < 2 ^ 31 ∧ (w.toNat : Int) = v % 2 ^ 16 := by
  simp only [← value?_eq_some_iff_literal]
  unfold read?
  cases value? t with
  | none => simp
  | some v =>
    have hcut := Arith.toNat_uint16_ofInt v
    simp only [Option.some.injEq, exists_eq_left']
    split_ifs with hv
    · rw [Option.some.injEq, ← UInt16.toNat_inj]
      omega
    · simp only [false_iff]
      omega

/-- A number is read from a text if and only if the text is a literal of 32 bits, and it is the
value of the literal modulo 65536. No text is a literal of two values. -/
theorem literal_exact (t : Text) :
    (∀ w, read? t = some w ↔
      ∃ v, Literal t v ∧ -2 ^ 31 ≤ v ∧ v < 2 ^ 31 ∧ (w.toNat : Int) = v % 2 ^ 16) ∧
    (read? t = none ↔ ∀ v, Literal t v → v < -2 ^ 31 ∨ 2 ^ 31 ≤ v) ∧
    ∀ v v', Literal t v → Literal t v' → v = v' := by
  refine ⟨fun w => read?_eq_some_iff, ?_, ?_⟩
  · constructor
    · intro hnone v hv
      by_contra hrange
      have hsome := read?_eq_some_iff.mpr
        ⟨v, hv, by omega, by omega, Arith.toNat_uint16_ofInt v⟩
      rw [hnone] at hsome
      cases hsome
    · intro hout
      rw [Option.eq_none_iff_forall_ne_some]
      intro w hw
      obtain ⟨v, hv, hlow, hhigh, -⟩ := read?_eq_some_iff.mp hw
      have := hout v hv
      omega
  · intro v v' hv hv'
    rw [← value?_eq_some_iff_literal] at hv hv'
    exact Option.some.inj (hv.symm.trans hv')

-- The two ends of the range, signs behind a prefix, and zeros of each base.
example : read? "-2147483648" = some 0 ∧ read? "2147483648" = none ∧
    read? "0x7fffFFFF" = some 0xFFFF ∧ read? "0x80000000" = none ∧
    read? "0x-1" = none ∧ read? "0x" = none ∧ read? "0-1" = none ∧ read? "0" = some 0 ∧
    read? "-0" = some 0 ∧ read? "00" = some 0 ∧ read? "08" = none := by
  decide +kernel

end BarrelAsm.Numeral
