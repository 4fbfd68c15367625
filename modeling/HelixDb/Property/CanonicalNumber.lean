/-
  HelixDb.Property.CanonicalNumber

  **THE CANONICAL NUMBER** that integers and floats share.

  A finite number is kept in two normal forms at once: an odd significand with
  its exponent, for equality, and a significand shifted to the top of a word
  with the floor of the logarithm, for order.  How the four parts hang together
  is part of the type.

    • `value_injective` — equal numbers have one canonical form,
    • `value_fromI64`, `map_value_fromF64`, `map_value_fromF32` — the canonical
      form of an integer or of a float pattern stands for exactly its number.
-/
import HelixDb.Lib.CompareCode
import HelixDb.Lib.Dyadic

namespace HelixDb.Property

open HelixDb.Lib

/-! ## §1. Finite magnitudes. -/

/-- Exact finite magnitude represented as `oddSignificand * 2 ^ exponent`. -/
structure CanonicalFinite where
  exponent : Int
  oddSignificand : Nat
  floorLog2 : Int
  normalizedSignificand : Nat
  odd : oddSignificand % 2 = 1
  lt : oddSignificand < 2 ^ 64
  floorLog2_eq : floorLog2 = exponent + oddSignificand.log2
  normalized_eq : normalizedSignificand = oddSignificand * 2 ^ leadingZeros 64 oddSignificand
  exponent_ge : -1074 ≤ exponent
  floorLog2_le : floorLog2 ≤ 1023
deriving DecidableEq

/-- A nonzero `u64` and the exponent it is scaled by, within the range of
`f64`: what the constructors normalize. -/
structure Scaled where
  significand : Nat
  exponent : Int
  ne_zero : significand ≠ 0
  lt : significand < 2 ^ 64
  exponent_ge : -1074 ≤ exponent
  log_le : exponent + significand.log2 ≤ 1023

namespace Scaled

variable (parts : Scaled)

/-- The zero bits the significand ends in. -/
def trailing : Nat := trailingZeros 64 parts.significand

/-- The significand without them. -/
def oddPart : Nat := parts.significand >>> parts.trailing

theorem oddPart_odd : parts.oddPart % 2 = 1 :=
  (trailingZeros_spec 64 parts.significand parts.ne_zero parts.lt).1

theorem oddPart_mul : parts.oddPart * 2 ^ parts.trailing = parts.significand :=
  (trailingZeros_spec 64 parts.significand parts.ne_zero parts.lt).2

theorem oddPart_ne_zero : parts.oddPart ≠ 0 := by
  have hodd := parts.oddPart_odd
  omega

theorem oddPart_lt : parts.oddPart < 2 ^ 64 := by
  refine lt_of_le_of_lt ?_ parts.lt
  calc parts.oddPart ≤ parts.oddPart * 2 ^ parts.trailing :=
        Nat.le_mul_of_pos_right _ (Nat.two_pow_pos _)
    _ = parts.significand := parts.oddPart_mul

theorem log2_significand : parts.significand.log2 = parts.oddPart.log2 + parts.trailing := by
  rw [← log2_mul_two_pow parts.oddPart_ne_zero, parts.oddPart_mul]

theorem log2_oddPart_le : parts.oddPart.log2 ≤ 63 :=
  Nat.lt_succ_iff.mp ((Nat.log2_lt parts.oddPart_ne_zero).mpr parts.oddPart_lt)

theorem leadingZeros_oddPart : leadingZeros 64 parts.oddPart = 63 - parts.oddPart.log2 := by
  simp [leadingZeros, parts.oddPart_ne_zero]

theorem floorLog2_eq :
    parts.exponent + parts.trailing + (64 - 1 - leadingZeros 64 parts.oddPart : Nat) =
      parts.exponent + parts.trailing + parts.oddPart.log2 := by
  have hlog := parts.log2_oddPart_le
  have hzeros := parts.leadingZeros_oddPart
  omega

theorem normalized_eq : parts.oddPart <<< leadingZeros 64 parts.oddPart % 2 ^ 64 =
    parts.oddPart * 2 ^ leadingZeros 64 parts.oddPart := by
  rw [Nat.shiftLeft_eq]
  exact Nat.mod_eq_of_lt (leadingZeros_spec parts.oddPart_ne_zero parts.oddPart_lt).2

theorem exponent_add_ge : -1074 ≤ parts.exponent + parts.trailing := by
  have hge := parts.exponent_ge
  omega

theorem floorLog2_le :
    parts.exponent + parts.trailing + (64 - 1 - leadingZeros 64 parts.oddPart : Nat) ≤ 1023 := by
  have hle := parts.log_le
  have hlog := parts.log2_significand
  rw [parts.floorLog2_eq]
  omega

end Scaled

namespace CanonicalFinite

/-- `CanonicalNumber::finite` without the sign: the two normal forms. -/
def ofScaled (parts : Scaled) : CanonicalFinite where
  exponent := parts.exponent + parts.trailing
  oddSignificand := parts.oddPart
  floorLog2 := parts.exponent + parts.trailing + (64 - 1 - leadingZeros 64 parts.oddPart : Nat)
  normalizedSignificand := parts.oddPart <<< leadingZeros 64 parts.oddPart % 2 ^ 64
  odd := parts.oddPart_odd
  lt := parts.oddPart_lt
  floorLog2_eq := parts.floorLog2_eq
  normalized_eq := parts.normalized_eq
  exponent_ge := parts.exponent_add_ge
  floorLog2_le := parts.floorLog2_le

variable (f : CanonicalFinite)

/-- The magnitude. -/
def magnitude : ℚ := dyadic f.oddSignificand f.exponent

theorem oddSignificand_ne_zero : f.oddSignificand ≠ 0 := by
  have hodd := f.odd
  omega

theorem magnitude_pos : 0 < f.magnitude := dyadic_pos (Nat.pos_of_ne_zero f.oddSignificand_ne_zero) _

theorem magnitude_ofScaled (parts : Scaled) :
    (ofScaled parts).magnitude = dyadic parts.significand parts.exponent := by
  show dyadic parts.oddPart (parts.exponent + parts.trailing) = _
  rw [← dyadic_mul_pow, parts.oddPart_mul]

theorem log2_oddSignificand_le : f.oddSignificand.log2 ≤ 63 :=
  Nat.lt_succ_iff.mp ((Nat.log2_lt f.oddSignificand_ne_zero).mpr f.lt)

theorem normalized_ge : 2 ^ 63 ≤ f.normalizedSignificand := by
  rw [f.normalized_eq]
  exact (leadingZeros_spec f.oddSignificand_ne_zero f.lt).1

theorem normalized_lt : f.normalizedSignificand < 2 ^ 64 := by
  rw [f.normalized_eq]
  exact (leadingZeros_spec f.oddSignificand_ne_zero f.lt).2

/-- The second normal form stands for the same magnitude. -/
theorem magnitude_eq_normalized :
    f.magnitude = dyadic f.normalizedSignificand (f.floorLog2 - 63) := by
  have hlog := f.log2_oddSignificand_le
  have hzeros : leadingZeros 64 f.oddSignificand = 63 - f.oddSignificand.log2 := by
    simp [leadingZeros, f.oddSignificand_ne_zero]
  have hexponent : f.floorLog2 - 63 + (leadingZeros 64 f.oddSignificand : Int) = f.exponent := by
    rw [f.floorLog2_eq]
    omega
  rw [f.normalized_eq, dyadic_mul_pow, hexponent]
  rfl

/-- **Magnitudes compare by logarithm, then by normalized significand.** -/
theorem magnitude_lt_iff (g : CanonicalFinite) :
    f.magnitude < g.magnitude ↔ f.floorLog2 < g.floorLog2 ∨
      f.floorLog2 = g.floorLog2 ∧ f.normalizedSignificand < g.normalizedSignificand := by
  rw [f.magnitude_eq_normalized, g.magnitude_eq_normalized,
    dyadic_lt_iff f.normalized_ge f.normalized_lt g.normalized_ge g.normalized_lt]
  simp

/-- The odd significand and its exponent determine the other parts. -/
theorem ext_odd {f g : CanonicalFinite} (hexponent : f.exponent = g.exponent)
    (hsignificand : f.oddSignificand = g.oddSignificand) : f = g := by
  have hfloor : f.floorLog2 = g.floorLog2 := by
    rw [f.floorLog2_eq, g.floorLog2_eq, hsignificand, hexponent]
  have hnormalized : f.normalizedSignificand = g.normalizedSignificand := by
    rw [f.normalized_eq, g.normalized_eq, hsignificand]
  cases f
  simp_all

/-- **Equal magnitudes have one canonical form.** -/
theorem magnitude_injective : Function.Injective magnitude := by
  intro f g h
  obtain ⟨hsignificand, hexponent⟩ := dyadic_odd_inj f.odd g.odd h
  exact ext_odd hexponent hsignificand

end CanonicalFinite

/-! ## §2. Numbers. -/

/-- Exact non-NaN numeric value shared by planner proofs and storage codecs. -/
inductive CanonicalNumber where
  | negativeInfinity
  | negativeFinite (finite : CanonicalFinite)
  | zero
  | positiveFinite (finite : CanonicalFinite)
  | positiveInfinity
deriving DecidableEq

namespace CanonicalNumber

/-- A finite number of the given sign. -/
def finite (negative : Bool) (parts : Scaled) : CanonicalNumber :=
  if negative then .negativeFinite (.ofScaled parts) else .positiveFinite (.ofScaled parts)

/-- The number a canonical form stands for. -/
def value : CanonicalNumber → ExtRat
  | .negativeInfinity => ⊥
  | .negativeFinite f => ExtRat.finite (-f.magnitude)
  | .zero => ExtRat.finite 0
  | .positiveFinite f => ExtRat.finite f.magnitude
  | .positiveInfinity => ⊤

/-- **Equal numbers have one canonical form.** -/
theorem value_injective : Function.Injective value := by
  have hbot : ∀ q, ExtRat.finite q ≠ ⊥ := fun q => ExtRat.bot_lt_finite.ne'
  have htop : ∀ q, ExtRat.finite q ≠ ⊤ := fun q => ExtRat.finite_lt_top.ne
  have hpos : ∀ f : CanonicalFinite, f.magnitude ≠ 0 := fun f => f.magnitude_pos.ne'
  have hneg : ∀ f g : CanonicalFinite, -f.magnitude ≠ g.magnitude := by
    intro f g hfg
    have hf := f.magnitude_pos
    have hg := g.magnitude_pos
    linarith
  -- the five classes are apart, and within a finite class magnitudes decide
  intro m n h
  cases m <;> cases n <;>
    simp_all [value, CanonicalFinite.magnitude_injective.eq_iff, (hneg _ _).symm]

theorem value_finite (negative : Bool) (parts : Scaled) :
    (finite negative parts).value
      = ExtRat.finite ((if negative then -1 else 1)
          * dyadic parts.significand parts.exponent) := by
  unfold finite
  cases negative with
  | false | true => simp [value, CanonicalFinite.magnitude_ofScaled]

/-! ## §3. Integers. -/

/-- A nonzero integer, scaled by one. -/
def scaledI64 (n : Int64) (h : n ≠ 0) : Scaled where
  significand := n.toInt.natAbs
  exponent := 0
  ne_zero := by
    intro h0
    exact h (Int64.toInt_inj.mp (Int.natAbs_eq_zero.mp h0))
  lt := by
    have hlow := n.le_toInt
    have hhigh := n.toInt_lt
    omega
  exponent_ge := by omega
  log_le := by
    have hne : n.toInt.natAbs ≠ 0 := fun h0 => h (Int64.toInt_inj.mp (Int.natAbs_eq_zero.mp h0))
    have hlt : n.toInt.natAbs < 2 ^ 64 := by
      have hlow := n.le_toInt
      have hhigh := n.toInt_lt
      omega
    have hlog := (Nat.log2_lt hne).mpr hlt
    omega

/-- The number an integer is. -/
def fromI64 (n : Int64) : CanonicalNumber :=
  if h : n = 0 then .zero else finite (decide (n.toInt < 0)) (scaledI64 n h)

/-- **An integer's canonical form stands for the integer.** -/
theorem value_fromI64 (n : Int64) : (fromI64 n).value = ExtRat.finite n.toInt := by
  unfold fromI64
  by_cases h : n = 0
  · subst h
    simp [value]
  · rw [dif_neg h, value_finite]
    congr 1
    show _ * dyadic n.toInt.natAbs 0 = _
    have habs : ((n.toInt.natAbs : ℕ) : ℚ) = |(n.toInt : ℚ)| := by
      rw [Nat.cast_natAbs, Int.cast_abs]
    simp only [dyadic, habs]
    by_cases hneg : n.toInt < 0
    · have hneg' : (n.toInt : ℚ) < 0 := by exact_mod_cast hneg
      rw [abs_of_neg hneg']
      simp [hneg]
    · have hneg' : 0 ≤ (n.toInt : ℚ) := by exact_mod_cast (not_lt.mp hneg)
      rw [abs_of_nonneg hneg']
      simp [hneg]

/-! ## §4. Floats. -/

/-- A float layout whose finite numbers lie within the range of `f64`. -/
structure FloatBits extends FloatLayout where
  fraction_lt : fractionBits < 64
  exponent_pos : 0 < exponentBits
  exponent_ge : -1074 ≤ 1 - bias - fractionBits
  exponent_le : 2 ^ exponentBits - 2 - bias ≤ 1023

namespace FloatBits

variable (layout : FloatBits) (bits : Nat)

/-- The parts of a pattern with exponent field zero. -/
def subnormal (h : layout.fractionField bits ≠ 0) : Scaled where
  significand := layout.fractionField bits
  exponent := 1 - layout.bias - layout.fractionBits
  ne_zero := h
  lt := (layout.fractionField_lt bits).trans (Nat.pow_lt_pow_right (by decide) layout.fraction_lt)
  exponent_ge := layout.exponent_ge
  log_le := by
    have hlog := (Nat.log2_lt h).mpr (layout.fractionField_lt bits)
    have hle := layout.exponent_le
    have hpow : (2 : Int) ^ 1 ≤ 2 ^ layout.exponentBits :=
      pow_le_pow_right₀ (by decide) layout.exponent_pos
    omega

/-- The parts of a pattern with a hidden bit. -/
def normal (h0 : layout.exponentField bits ≠ 0) (h : ¬ layout.Special bits) : Scaled where
  significand := 2 ^ layout.fractionBits + layout.fractionField bits
  exponent := layout.exponentField bits - layout.bias - layout.fractionBits
  ne_zero := by
    have hpow := Nat.two_pow_pos layout.fractionBits
    omega
  lt := by
    have hfraction := layout.fractionField_lt bits
    calc 2 ^ layout.fractionBits + layout.fractionField bits < 2 ^ (layout.fractionBits + 1) := by
          rw [pow_succ]
          omega
      _ ≤ 2 ^ 64 := Nat.pow_le_pow_right (by decide) layout.fraction_lt
  exponent_ge := by
    have hge := layout.exponent_ge
    omega
  log_le := by
    have hfraction := layout.fractionField_lt bits
    have hlog : (2 ^ layout.fractionBits + layout.fractionField bits).log2
        = layout.fractionBits := by
      rw [Nat.log2_eq_iff (by omega), pow_succ]
      omega
    have hexponent := layout.exponentField_lt bits
    have hspecial : layout.exponentField bits ≠ 2 ^ layout.exponentBits - 1 := h
    have hle := layout.exponent_le
    have hcast : ((2 ^ layout.exponentBits : Nat) : Int) = 2 ^ layout.exponentBits := by
      push_cast
      rfl
    omega

end FloatBits

/-- `from_f64` and `from_f32`, which differ in the layout only. -/
def fromFloatBits (layout : FloatBits) (bits : Nat) : Option CanonicalNumber :=
  if hspecial : layout.Special bits then
    if layout.fractionField bits = 0 then
      some (if layout.negative bits then .negativeInfinity else .positiveInfinity)
    else none
  else if hzero : layout.exponentField bits = 0 then
    if hfraction : layout.fractionField bits = 0 then some .zero
    else some (finite (layout.negative bits) (layout.subnormal bits hfraction))
  else some (finite (layout.negative bits) (layout.normal bits hzero hspecial))

/-- The layout of `f64`. -/
def f64Bits : FloatBits where
  fractionBits := 52
  exponentBits := 11
  bias := 1023
  fraction_lt := by decide
  exponent_pos := by decide
  exponent_ge := by decide
  exponent_le := by decide

/-- The layout of `f32`. -/
def f32Bits : FloatBits where
  fractionBits := 23
  exponentBits := 8
  bias := 127
  fraction_lt := by decide
  exponent_pos := by decide
  exponent_ge := by decide
  exponent_le := by decide

/-- Normalize an `f64`, given by its bits, returning `none` for NaN. -/
def fromF64 (bits : UInt64) : Option CanonicalNumber := fromFloatBits f64Bits bits.toNat

/-- Normalize an `f32`, given by its bits, returning `none` for NaN. -/
def fromF32 (bits : UInt32) : Option CanonicalNumber := fromFloatBits f32Bits bits.toNat

/-- **A pattern's canonical form stands for the pattern's number**; what is not
a number has none. -/
theorem map_value_fromFloatBits (layout : FloatBits) (bits : Nat) :
    (fromFloatBits layout bits).map value = layout.value bits := by
  unfold fromFloatBits FloatLayout.value
  by_cases hspecial : layout.Special bits
  · rw [dif_pos hspecial, if_pos hspecial]
    split_ifs <;> rfl
  · rw [dif_neg hspecial, if_neg hspecial, FloatLayout.magnitude]
    by_cases hzero : layout.exponentField bits = 0
    · rw [dif_pos hzero, if_pos hzero]
      by_cases hfraction : layout.fractionField bits = 0
      · rw [dif_pos hfraction, hfraction]
        simp [value, dyadic]
      · rw [dif_neg hfraction, Option.map_some, value_finite]
        rfl
    · rw [dif_neg hzero, if_neg hzero, Option.map_some, value_finite]
      rfl

theorem map_value_fromF64 (bits : UInt64) :
    (fromF64 bits).map value = f64Bits.value bits.toNat := map_value_fromFloatBits _ _

theorem map_value_fromF32 (bits : UInt32) :
    (fromF32 bits).map value = f32Bits.value bits.toNat := map_value_fromFloatBits _ _

end CanonicalNumber

/-! ## §5. The order of numbers. -/

/-- `magnitude_cmp`. -/
def CanonicalFinite.magnitudeCmp (left right : CanonicalFinite) : Ordering :=
  (compare left.floorLog2 right.floorLog2).then
    (compare left.normalizedSignificand right.normalizedSignificand)

/-- `Ord for CanonicalNumber`. -/
instance : Ord CanonicalNumber where
  compare
    | .negativeInfinity, .negativeInfinity | .zero, .zero
    | .positiveInfinity, .positiveInfinity => .eq
    | .negativeInfinity, _ | _, .positiveInfinity => .lt
    | _, .negativeInfinity | .positiveInfinity, _ => .gt
    | .negativeFinite left, .negativeFinite right => right.magnitudeCmp left
    | .positiveFinite left, .positiveFinite right => left.magnitudeCmp right
    | .negativeFinite _, _ | .zero, .positiveFinite _ => .lt
    | _, .negativeFinite _ | .positiveFinite _, .zero => .gt

theorem CanonicalFinite.magnitudeCmp_eq (f g : CanonicalFinite) :
    f.magnitudeCmp g = cmp f.magnitude g.magnitude := by
  rw [magnitudeCmp, ← cmp_eq_compare, ← cmp_eq_compare]
  exact (cmp_eq_then (f.magnitude_lt_iff g) (g.magnitude_lt_iff f)).symm

/-- **Canonical forms compare as the numbers they stand for.** -/
theorem CanonicalNumber.compare_eq (m n : CanonicalNumber) : compare m n = cmp m.value n.value := by
  have hpos : ∀ f : CanonicalFinite, 0 < f.magnitude := fun f => f.magnitude_pos
  have hneg : ∀ f : CanonicalFinite, -f.magnitude < 0 := fun f => neg_neg_of_pos f.magnitude_pos
  have hcross : ∀ f g : CanonicalFinite, -f.magnitude < g.magnitude :=
    fun f g => (hneg f).trans (hpos g)
  have hfinite : ∀ p q : ℚ, cmp (ExtRat.finite p) (ExtRat.finite q) = cmp p q := by
    intro p q
    simp only [cmp, cmpUsing, ExtRat.finite_lt_finite]
  cases m with
  | negativeInfinity =>
    cases n with
    | negativeInfinity => exact (cmp_self_eq_eq _).symm
    | positiveInfinity => exact ((cmp_eq_lt_iff _ _).mpr bot_lt_top).symm
    | _ => exact ((cmp_eq_lt_iff _ _).mpr ExtRat.bot_lt_finite).symm
  | positiveInfinity =>
    cases n with
    | negativeInfinity => exact ((cmp_eq_gt_iff _ _).mpr bot_lt_top).symm
    | positiveInfinity => exact (cmp_self_eq_eq _).symm
    | _ => exact ((cmp_eq_gt_iff _ _).mpr ExtRat.finite_lt_top).symm
  | negativeFinite f =>
    cases n with
    | negativeInfinity => exact ((cmp_eq_gt_iff _ _).mpr ExtRat.bot_lt_finite).symm
    | positiveInfinity => exact ((cmp_eq_lt_iff _ _).mpr ExtRat.finite_lt_top).symm
    | negativeFinite g =>
      show g.magnitudeCmp f = _
      rw [value, value, hfinite, CanonicalFinite.magnitudeCmp_eq]
      simp only [cmp, cmpUsing, neg_lt_neg_iff]
    | zero => exact ((hfinite _ _).trans ((cmp_eq_lt_iff _ _).mpr (hneg f))).symm
    | positiveFinite g => exact ((hfinite _ _).trans ((cmp_eq_lt_iff _ _).mpr (hcross f g))).symm
  | zero =>
    cases n with
    | negativeInfinity => exact ((cmp_eq_gt_iff _ _).mpr ExtRat.bot_lt_finite).symm
    | positiveInfinity => exact ((cmp_eq_lt_iff _ _).mpr ExtRat.finite_lt_top).symm
    | negativeFinite g => exact ((hfinite _ _).trans ((cmp_eq_gt_iff _ _).mpr (hneg g))).symm
    | zero => exact (cmp_self_eq_eq _).symm
    | positiveFinite g => exact ((hfinite _ _).trans ((cmp_eq_lt_iff _ _).mpr (hpos g))).symm
  | positiveFinite f =>
    cases n with
    | negativeInfinity => exact ((cmp_eq_gt_iff _ _).mpr ExtRat.bot_lt_finite).symm
    | positiveInfinity => exact ((cmp_eq_lt_iff _ _).mpr ExtRat.finite_lt_top).symm
    | negativeFinite g => exact ((hfinite _ _).trans ((cmp_eq_gt_iff _ _).mpr (hcross g f))).symm
    | zero => exact ((hfinite _ _).trans ((cmp_eq_gt_iff _ _).mpr (hpos f))).symm
    | positiveFinite g =>
      show f.magnitudeCmp g = _
      rw [value, value, hfinite, CanonicalFinite.magnitudeCmp_eq]

end HelixDb.Property
