/-
  HelixDb.Lib.Dyadic

  **EXACT BINARY NUMBERS**: `m * 2 ^ e` as a rational, its two normal forms,
  and the numbers that floating-point bit patterns stand for.

    • `dyadic_odd_inj` — the form with an odd significand is unique,
    • `dyadic_lt_iff` — significands normalized to one width
      compare by exponent first, then by significand,
    • `trailingZeros_spec` — a significand is its odd part, shifted,
    • `FloatLayout.value` — the number of a bit pattern of a binary
      interchange format, in the extended rationals.
-/
import Mathlib

namespace HelixDb.Lib

/-- The rational `m * 2 ^ e`. -/
def dyadic (m : Nat) (e : Int) : ℚ := m * 2 ^ e

/-! ## §1. Normal forms. -/

variable {n m w k : Nat}

theorem dyadic_pos (h : 0 < m) (e : Int) : 0 < dyadic m e := by
  unfold dyadic
  positivity

/-- Factors of two move into the exponent. -/
theorem dyadic_mul_pow (m k : Nat) (e : Int) : dyadic (m * 2 ^ k) e = dyadic m (e + k) := by
  unfold dyadic
  rw [zpow_add₀ (by norm_num : (2 : ℚ) ≠ 0), zpow_natCast]
  push_cast
  ring

theorem dyadic_lt_dyadic {e : Int} : dyadic m e < dyadic n e ↔ m < n := by
  unfold dyadic
  rw [mul_lt_mul_iff_left₀ (by positivity), Nat.cast_lt]

theorem dyadic_le_dyadic {e : Int} : dyadic m e ≤ dyadic n e ↔ m ≤ n := by
  unfold dyadic
  rw [mul_le_mul_iff_left₀ (by positivity), Nat.cast_le]

theorem dyadic_inj {e : Int} : dyadic m e = dyadic n e ↔ m = n := by
  rw [le_antisymm_iff, dyadic_le_dyadic, dyadic_le_dyadic, ← le_antisymm_iff]

/-- A power of two at a larger exponent. -/
theorem dyadic_two_pow_le {d e : Int} (h : d < e) :
    dyadic (2 ^ (w + 1)) d ≤ dyadic (2 ^ w) e := by
  obtain ⟨k, hk⟩ := Int.le.dest (Int.add_one_le_iff.mpr h)
  have hsplit : e = d + ((k + 1 : Nat) : Int) := by
    omega
  rw [hsplit, ← dyadic_mul_pow, dyadic_le_dyadic, ← pow_add]
  exact Nat.pow_le_pow_right (by decide) (by omega)

section Normalized

variable {w a b : Nat} {d e : Int} (ha : 2 ^ w ≤ a) (ha' : a < 2 ^ (w + 1))
  (hb : 2 ^ w ≤ b) (hb' : b < 2 ^ (w + 1))

include ha' hb in
theorem dyadic_lt_of_exponent_lt (h : d < e) : dyadic a d < dyadic b e :=
  calc dyadic a d < dyadic (2 ^ (w + 1)) d := dyadic_lt_dyadic.mpr ha'
    _ ≤ dyadic (2 ^ w) e := dyadic_two_pow_le h
    _ ≤ dyadic b e := dyadic_le_dyadic.mpr hb

include ha ha' hb hb'

/-- **Normalized significands compare by exponent first.** -/
theorem dyadic_lt_iff : dyadic a d < dyadic b e ↔ d < e ∨ d = e ∧ a < b := by
  rcases lt_trichotomy d e with h | rfl | h
  · simp [h, dyadic_lt_of_exponent_lt ha' hb h]
  · simp [dyadic_lt_dyadic]
  · have hgt := dyadic_lt_of_exponent_lt hb' ha h
    simp [h.not_gt, h.ne', hgt.le]

end Normalized

/-- An odd number is not a proper multiple of a power of two. -/
theorem eq_zero_of_odd_mul_two_pow (hm : m % 2 = 1) (h : m = n * 2 ^ k) : k = 0 := by
  cases k with
  | zero => rfl
  | succ k =>
    rw [pow_succ, ← mul_assoc] at h
    omega

/-- **The form with an odd significand is unique.** -/
theorem dyadic_odd_inj {d e : Int} (hm : m % 2 = 1) (hn : n % 2 = 1)
    (h : dyadic m d = dyadic n e) : m = n ∧ d = e := by
  rcases le_total d e with hde | hde
  · obtain ⟨k, rfl⟩ := Int.le.dest hde
    rw [← dyadic_mul_pow, dyadic_inj] at h
    obtain rfl := eq_zero_of_odd_mul_two_pow hm h
    simpa using h
  · obtain ⟨k, rfl⟩ := Int.le.dest hde
    rw [← dyadic_mul_pow, dyadic_inj] at h
    obtain rfl := eq_zero_of_odd_mul_two_pow hn h.symm
    simpa using h

/-! ## §2. Words. -/

/-- The number of trailing zero bits of a word of `w` bits. -/
def trailingZeros : Nat → Nat → Nat
  | 0, _ => 0
  | w + 1, n => if n % 2 = 1 then 0 else trailingZeros w (n / 2) + 1

/-- The number of leading zero bits of a word of `w` bits. -/
def leadingZeros (w n : Nat) : Nat := if n = 0 then w else w - 1 - n.log2

/-- The logarithm of a shifted word. -/
theorem log2_mul_two_pow (hn : n ≠ 0) (k : Nat) : (n * 2 ^ k).log2 = n.log2 + k := by
  rw [Nat.log2_eq_log_two, Nat.log2_eq_log_two]
  induction k with
  | zero => simp
  | succ k ih =>
    rw [pow_succ, ← mul_assoc, Nat.log_mul_base (by decide) (by positivity), ih]
    rfl

/-- A nonzero word is its odd part, shifted by its trailing zeros. -/
theorem trailingZeros_spec (w : Nat) :
    ∀ n, n ≠ 0 → n < 2 ^ w →
      n >>> trailingZeros w n % 2 = 1 ∧ n >>> trailingZeros w n * 2 ^ trailingZeros w n = n := by
  induction w with
  | zero =>
    omega
  | succ w ih =>
    intro n hn hlt
    by_cases hodd : n % 2 = 1
    · simp [trailingZeros, hodd]
    · obtain ⟨hpart, hjoin⟩ := ih (n / 2) (by omega) (by rw [pow_succ] at hlt; omega)
      have hshift : n >>> (trailingZeros w (n / 2) + 1)
          = (n / 2) >>> trailingZeros w (n / 2) := by
        rw [Nat.add_comm, Nat.shiftRight_add, Nat.shiftRight_one]
      rw [trailingZeros, if_neg hodd, hshift, pow_succ, ← mul_assoc]
      omega

/-- A nonzero word shifted by its leading zeros fills the word. -/
theorem leadingZeros_spec (hn : n ≠ 0) (hlt : n < 2 ^ (w + 1)) :
    2 ^ w ≤ n * 2 ^ leadingZeros (w + 1) n ∧ n * 2 ^ leadingZeros (w + 1) n < 2 ^ (w + 1) := by
  have hlog : n.log2 ≤ w := Nat.lt_succ_iff.mp ((Nat.log2_lt hn).mpr hlt)
  have hlow : 2 ^ n.log2 ≤ n := Nat.log2_self_le hn
  have hhigh : n < 2 ^ (n.log2 + 1) := Nat.lt_log2_self
  have hzeros : leadingZeros (w + 1) n = w - n.log2 := by simp [leadingZeros, hn]
  have hpow : 0 < 2 ^ (w - n.log2) := Nat.two_pow_pos _
  rw [hzeros]
  constructor
  · calc 2 ^ w = 2 ^ n.log2 * 2 ^ (w - n.log2) := by rw [← pow_add]; congr 1; omega
      _ ≤ n * 2 ^ (w - n.log2) := Nat.mul_le_mul_right _ hlow
  · calc n * 2 ^ (w - n.log2) < 2 ^ (n.log2 + 1) * 2 ^ (w - n.log2) :=
          Nat.mul_lt_mul_of_pos_right hhigh hpow
      _ = 2 ^ (w + 1) := by rw [← pow_add]; congr 1; omega

theorem two_pow_xor_of_lt {k x : Nat} (h : x < 2 ^ k) : 2 ^ k ^^^ x = 2 ^ k + x := by
  apply Nat.eq_of_testBit_eq
  intro i
  rw [Nat.testBit_xor, Nat.testBit_two_pow]
  rcases Nat.lt_trichotomy i k with hi | rfl | hi
  · rw [Nat.testBit_two_pow_add_gt hi]
    simp [hi.ne']
  · rw [Nat.testBit_two_pow_add_eq]
    simp
  · have hpow : 2 ^ (k + 1) ≤ 2 ^ i := Nat.pow_le_pow_right (by decide) hi
    rw [Nat.testBit_lt_two_pow (by omega), Nat.testBit_lt_two_pow (by omega)]
    simp [hi.ne]

/-- A two's-complement word as a number. -/
theorem toInt_eq_toNat (n : Int64) :
    n.toInt = if n.toUInt64.toNat < 2 ^ 63 then (n.toUInt64.toNat : Int)
      else n.toUInt64.toNat - 2 ^ 64 := by
  have hcond := BitVec.toInt_eq_toNat_cond n.toBitVec
  have hnat : n.toUInt64.toNat = n.toBitVec.toNat := rfl
  show n.toBitVec.toInt = _
  rw [hcond]
  split <;> split <;> omega

/-- Flipping the top bit of a two's-complement word adds half its range. -/
theorem flipSign_toNat (n : Int64) :
    ((n.toUInt64 ^^^ (1 : UInt64) <<< 63).toNat : Int) = n.toInt + 2 ^ 63 := by
  have hbit : ((1 : UInt64) <<< 63).toNat = 2 ^ 63 := by decide
  have hlt := n.toUInt64.toNat_lt
  rw [UInt64.toNat_xor, hbit, toInt_eq_toNat, Nat.xor_comm]
  by_cases hx : n.toUInt64.toNat < 2 ^ 63
  · rw [if_pos hx, two_pow_xor_of_lt hx]
    push_cast
    ring
  · obtain ⟨y, hy⟩ := Nat.exists_eq_add_of_le (not_lt.mp hx)
    have hy' : y < 2 ^ 63 := by omega
    rw [if_neg hx, hy, ← two_pow_xor_of_lt hy', ← Nat.xor_assoc, Nat.xor_self, Nat.zero_xor,
      two_pow_xor_of_lt hy']
    push_cast
    ring

/-! ## §3. Binary interchange formats. -/

/-- Rationals with both infinities. -/
abbrev ExtRat := WithBot (WithTop ℚ)

namespace ExtRat

/-- A rational as an extended one. -/
def finite (q : ℚ) : ExtRat := ((q : WithTop ℚ) : ExtRat)

variable {p q : ℚ}

@[simp] theorem finite_inj : finite p = finite q ↔ p = q := by
  simp [finite]

@[simp] theorem finite_lt_finite : finite p < finite q ↔ p < q := by
  simp [finite]

@[simp] theorem bot_lt_finite : ⊥ < finite q := WithBot.bot_lt_coe _

@[simp] theorem finite_lt_top : finite q < ⊤ := WithBot.coe_lt_coe.mpr (WithTop.coe_lt_top q)

end ExtRat

/-- A layout of sign, biased exponent and fraction. -/
structure FloatLayout where
  fractionBits : Nat
  exponentBits : Nat
  bias : Int

namespace FloatLayout

variable (layout : FloatLayout) (bits : Nat)

/-- The sign bit. -/
def negative : Bool := decide (bits / 2 ^ (layout.fractionBits + layout.exponentBits) ≠ 0)

/-- The biased exponent. -/
def exponentField : Nat := bits / 2 ^ layout.fractionBits % 2 ^ layout.exponentBits

/-- The bits of the fraction. -/
def fractionField : Nat := bits % 2 ^ layout.fractionBits

/-- The largest exponent field marks infinities and what is not a number. -/
def Special : Prop := layout.exponentField bits = 2 ^ layout.exponentBits - 1

instance : Decidable (layout.Special bits) := inferInstanceAs (Decidable (_ = _))

/-- The magnitude of a finite pattern; exponent field zero has no hidden bit. -/
def magnitude : ℚ :=
  if layout.exponentField bits = 0 then
    dyadic (layout.fractionField bits) (1 - layout.bias - layout.fractionBits)
  else
    dyadic (2 ^ layout.fractionBits + layout.fractionField bits)
      (layout.exponentField bits - layout.bias - layout.fractionBits)

/-- The number of a bit pattern, `none` for what is not a number. -/
def value : Option ExtRat :=
  if layout.Special bits then
    if layout.fractionField bits = 0 then some (if layout.negative bits then ⊥ else ⊤) else none
  else
    some (ExtRat.finite ((if layout.negative bits then -1 else 1) * layout.magnitude bits))

theorem fractionField_lt : layout.fractionField bits < 2 ^ layout.fractionBits :=
  Nat.mod_lt _ (Nat.two_pow_pos _)

theorem exponentField_lt : layout.exponentField bits < 2 ^ layout.exponentBits :=
  Nat.mod_lt _ (Nat.two_pow_pos _)

end FloatLayout

end HelixDb.Lib
