/-
  HelixDb.Property.MachineNumber

  **CANONICAL NUMBERS IN MACHINE ARITHMETIC.**

  `CanonicalNumber` computes with unbounded integers and carries its invariant.
  Here the constructors are written once more as the source has them, on `i16`,
  `u32` and `u64`, where an operation that overflows has no result.

    • `MachineNumber.finite_eq` — normalizing never overflows,
    • `canonicalNumber_exact` — the canonical form of every number, its
      equality and its order are exact.
-/
import HelixDb.Property.CanonicalNumber
import HelixDb.Lib.Checked

namespace HelixDb.Property

open HelixDb.Lib Option
open CanonicalNumber (f64Bits f32Bits scaledI64 value value_fromI64 compare_eq)

/-! ## §1. The constructors. -/

/-- `CanonicalFinite`, without its invariant. -/
structure MachineFinite where
  exponent : Int
  oddSignificand : Nat
  floorLog2 : Int
  normalizedSignificand : Nat
deriving DecidableEq

/-- `CanonicalNumber`, without its invariant. -/
inductive MachineNumber where
  | negativeInfinity
  | negativeFinite (finite : MachineFinite)
  | zero
  | positiveFinite (finite : MachineFinite)
  | positiveInfinity
deriving DecidableEq

namespace MachineNumber

/-- The fields of a finite number, every step checked; `none` is an overflow. -/
def finite (negative : Bool) (significand : Nat) (exponent : Int) : Option MachineNumber := do
  let trailing ← signed 16 (trailingZeros 64 significand)
  let oddSignificand ← checkedShr 64 significand trailing
  let exponent ← signed 16 (exponent + trailing)
  let high ← checkedSub 64 1
  let log ← checkedSub high (leadingZeros 64 oddSignificand)
  let log ← signed 16 log
  let floorLog2 ← signed 16 (exponent + log)
  let normalizedSignificand ← checkedShl 64 oddSignificand (leadingZeros 64 oddSignificand)
  let finite : MachineFinite := ⟨exponent, oddSignificand, floorLog2, normalizedSignificand⟩
  return if negative then .negativeFinite finite else .positiveFinite finite

/-- The number an `i64` is. -/
def fromI64 (value : Int64) : Option MachineNumber :=
  if value = 0 then some .zero
  else do
    let significand ← unsigned 64 value.toInt.natAbs
    finite (decide (value.toInt < 0)) significand 0

/-- `from_f64` and `from_f32`, which differ in the layout and in the exponent of
their subnormal numbers. -/
def fromFloatBits (layout : CanonicalNumber.FloatBits) (subnormalExponent : Int) (bits : Nat) :
    Option (Option MachineNumber) := do
  let exponentBits ← signed 16 (layout.exponentField bits)
  let fraction ← unsigned 64 (layout.fractionField bits)
  if exponentBits = 2 ^ layout.exponentBits - 1 then
    return if fraction = 0 then
      some (if layout.negative bits then .negativeInfinity else .positiveInfinity)
    else none
  else if exponentBits = 0 ∧ fraction = 0 then return some .zero
  else if exponentBits = 0 then do
    let number ← finite (layout.negative bits) fraction subnormalExponent
    return some number
  else do
    let hidden ← unsigned 64 (2 ^ layout.fractionBits)
    let exponent ← signed 16 (exponentBits - layout.bias)
    let exponent ← signed 16 (exponent - layout.fractionBits)
    let number ← finite (layout.negative bits) (hidden ||| fraction) exponent
    return some number

/-- The number an `f64` is, if it is one. -/
def fromF64 (bits : UInt64) : Option (Option MachineNumber) :=
  fromFloatBits f64Bits (-1074) bits.toNat

/-- The number an `f32` is, if it is one. -/
def fromF32 (bits : UInt32) : Option (Option MachineNumber) :=
  fromFloatBits f32Bits (-149) bits.toNat

end MachineNumber

/-! ## §2. They compute the canonical number. -/

/-- The data of a canonical magnitude. -/
def CanonicalFinite.machine (f : CanonicalFinite) : MachineFinite :=
  ⟨f.exponent, f.oddSignificand, f.floorLog2, f.normalizedSignificand⟩

/-- The data of a canonical number. -/
def CanonicalNumber.machine : CanonicalNumber → MachineNumber
  | .negativeInfinity => .negativeInfinity
  | .negativeFinite f => .negativeFinite f.machine
  | .zero => .zero
  | .positiveFinite f => .positiveFinite f.machine
  | .positiveInfinity => .positiveInfinity

theorem CanonicalFinite.machine_injective : Function.Injective machine := by
  intro f g h
  exact ext_odd (congrArg MachineFinite.exponent h) (congrArg MachineFinite.oddSignificand h)

theorem CanonicalNumber.machine_injective : Function.Injective machine := by
  intro m n h
  cases m <;> cases n <;> simp_all [machine, CanonicalFinite.machine_injective.eq_iff]

namespace MachineNumber

theorem trailing_lt (parts : Scaled) : parts.trailing < 64 := by
  have hpow : 2 ^ parts.trailing < 2 ^ 64 := by
    calc 2 ^ parts.trailing ≤ parts.oddPart * 2 ^ parts.trailing :=
          Nat.le_mul_of_pos_left _ (Nat.pos_of_ne_zero parts.oddPart_ne_zero)
      _ = parts.significand := parts.oddPart_mul
      _ < 2 ^ 64 := parts.lt
  exact (Nat.pow_lt_pow_iff_right (by decide)).mp hpow

/-- **Normalizing never overflows**, and it computes the two normal forms. -/
theorem finite_eq (negative : Bool) (parts : Scaled) :
    finite negative parts.significand parts.exponent =
      some (CanonicalNumber.finite negative parts).machine := by
  have htrailing := trailing_lt parts
  have hexponent := parts.exponent_ge
  have hlog := parts.log_le
  have hzeros : leadingZeros 64 parts.oddPart = 63 - parts.oddPart.log2 := by
    simp [leadingZeros, parts.oddPart_ne_zero]
  have hshifted : parts.oddPart <<< leadingZeros 64 parts.oddPart < 2 ^ 64 := by
    rw [Nat.shiftLeft_eq]
    exact (leadingZeros_spec parts.oddPart_ne_zero parts.oddPart_lt).2
  have hcount : signed 16 (parts.trailing : Int) = some (parts.trailing : Int) :=
    signed_of_bounds (by omega) (by omega)
  have hshift : checkedShr 64 parts.significand (parts.trailing : Int) = some parts.oddPart :=
    checkedShr_of_lt htrailing
  have hscaled : signed 16 (parts.exponent + parts.trailing) =
      some (parts.exponent + parts.trailing) := signed_of_bounds (by omega) (by omega)
  have hbits : checkedSub 64 1 = some 63 := checkedSub_of_le (by decide)
  have hwidth : checkedSub 63 (leadingZeros 64 parts.oddPart) =
      some (63 - leadingZeros 64 parts.oddPart) := checkedSub_of_le (by omega)
  have hhigh : 64 - 1 - leadingZeros 64 parts.oddPart = 63 - leadingZeros 64 parts.oddPart := by
    omega
  have hcast : signed 16 ((63 - leadingZeros 64 parts.oddPart : Nat) : Int) =
      some ((63 - leadingZeros 64 parts.oddPart : Nat) : Int) :=
    signed_of_bounds (by omega) (by omega)
  have hfloor : signed 16 (parts.exponent + parts.trailing + (63 - leadingZeros 64 parts.oddPart : Nat)) =
      some (parts.exponent + parts.trailing + (63 - leadingZeros 64 parts.oddPart : Nat)) :=
    signed_of_bounds (by omega) (by omega)
  have hnormal : checkedShl 64 parts.oddPart (leadingZeros 64 parts.oddPart) =
      some (parts.oddPart <<< leadingZeros 64 parts.oddPart) := checkedShl_of_lt (by omega) hshifted
  have htrailing_eq : trailingZeros 64 parts.significand = parts.trailing := rfl
  have hwrapped : (CanonicalFinite.ofScaled parts).machine.normalizedSignificand = _ :=
     Nat.mod_eq_of_lt hshifted
  unfold finite
  rw [htrailing_eq]
  simp only [bind_eq_bind]
  rw [hcount, bind_some, hshift, bind_some, hscaled, bind_some, hbits,
    bind_some, hwidth, bind_some, hcast, bind_some, hfloor,
    hnormal, ← hwrapped]
  cases negative <;> rfl

/-- An integer's magnitude fits `u64`, also that of the least one. -/
theorem fromI64_eq (n : Int64) : fromI64 n = some (CanonicalNumber.fromI64 n).machine := by
  unfold fromI64 CanonicalNumber.fromI64
  by_cases h : n = 0
  · rw [if_pos h, dif_pos h]
    rfl
  · have hlt : n.toInt.natAbs < 2 ^ 64 := (scaledI64 n h).lt
    have hfits : unsigned 64 n.toInt.natAbs = some n.toInt.natAbs := unsigned_of_lt hlt
    have hfinite : finite (decide (n.toInt < 0)) n.toInt.natAbs 0 = _ :=
      finite_eq (decide (n.toInt < 0)) (scaledI64 n h)
    rw [if_neg h, dif_neg h, hfits, bind_eq_bind, bind_some, hfinite]

variable (layout : CanonicalNumber.FloatBits)

/-- The fields of a layout within the range of `f64` fit `i16`. -/
theorem exponentBits_bounds : 2 ^ layout.exponentBits ≤ 2100 ∧ -1023 ≤ layout.bias ∧
    layout.bias + layout.fractionBits ≤ 1075 := by
  have hge := layout.exponent_ge
  have hle := layout.exponent_le
  have hpow : (2 : Int) ^ 1 ≤ 2 ^ layout.exponentBits :=
    pow_le_pow_right₀ (by decide) layout.exponent_pos
  have hcast : ((2 ^ layout.exponentBits : Nat) : Int) = 2 ^ layout.exponentBits := by
    rfl
  omega

theorem fromFloatBits_eq (bits : Nat) :
    fromFloatBits layout (1 - layout.bias - layout.fractionBits) bits =
      some ((CanonicalNumber.fromFloatBits layout bits).map CanonicalNumber.machine) := by
  obtain ⟨hwidth, hbias, hsum⟩ := exponentBits_bounds layout
  have hfield := layout.exponentField_lt bits
  have hfraction := layout.fractionField_lt bits
  have hpow : 2 ^ layout.fractionBits < 2 ^ 64 := Nat.pow_lt_pow_right (by decide) layout.fraction_lt
  have hexponent : signed 16 (layout.exponentField bits) = some (layout.exponentField bits : Int) :=
    signed_of_bounds (by omega) (by omega)
  have hspecial : (layout.exponentField bits : Int) = 2 ^ layout.exponentBits - 1 ↔
      layout.Special bits := by
    have hcast : ((2 ^ layout.exponentBits : Nat) : Int) = 2 ^ layout.exponentBits := by
      rfl
    unfold FloatLayout.Special
    omega
  unfold fromFloatBits CanonicalNumber.fromFloatBits
  simp only [bind_eq_bind, pure_def]
  rw [hexponent, bind_some, unsigned_of_lt (hfraction.trans hpow), bind_some]
  by_cases hs : layout.Special bits
  · rw [if_pos (hspecial.mpr hs), dif_pos hs]
    split_ifs <;> rfl
  · rw [if_neg (fun h => hs (hspecial.mp h)), dif_neg hs]
    by_cases hz : layout.exponentField bits = 0
    · have hz' : (layout.exponentField bits : Int) = 0 := by omega
      rw [dif_pos hz]
      by_cases h0 : layout.fractionField bits = 0
      · rw [if_pos ⟨hz', h0⟩, dif_pos h0]
        rfl
      · rw [if_neg (fun h => h0 h.2), if_pos hz', dif_neg h0]
        have hfinite : finite (layout.negative bits) (layout.fractionField bits)
            (1 - layout.bias - layout.fractionBits) = _ :=
          finite_eq (layout.negative bits) (layout.subnormal bits h0)
        rw [hfinite, bind_some, map_some]
    · have hz' : ¬ (layout.exponentField bits : Int) = 0 := by omega
      rw [dif_neg hz, if_neg (fun h => hz' h.1), if_neg hz', unsigned_of_lt hpow]
      -- The hidden bit lies above the fraction.
      have hor : 2 ^ layout.fractionBits ||| layout.fractionField bits =
          2 ^ layout.fractionBits + layout.fractionField bits := by
        have hsum := Nat.two_pow_add_eq_or_of_lt hfraction 1
        rw [mul_one] at hsum
        exact hsum.symm
      have hexp : signed 16 (layout.exponentField bits - layout.bias) =
          some (layout.exponentField bits - layout.bias) := signed_of_bounds (by omega) (by omega)
      have hexp' : signed 16 (layout.exponentField bits - layout.bias - layout.fractionBits) =
          some (layout.exponentField bits - layout.bias - layout.fractionBits) :=
        signed_of_bounds (by omega) (by omega)
      have hfinite : finite (layout.negative bits)
          (2 ^ layout.fractionBits + layout.fractionField bits)
          (layout.exponentField bits - layout.bias - layout.fractionBits) = _ :=
        finite_eq (layout.negative bits) (layout.normal bits hz hs)
      rw [bind_some, hexp, bind_some, hexp', bind_some, hor, hfinite,
        bind_some, map_some]

theorem fromF64_eq (bits : UInt64) :
    fromF64 bits = some ((CanonicalNumber.fromF64 bits).map CanonicalNumber.machine) :=
  fromFloatBits_eq f64Bits bits.toNat

theorem fromF32_eq (bits : UInt32) :
    fromF32 bits = some ((CanonicalNumber.fromF32 bits).map CanonicalNumber.machine) :=
  fromFloatBits_eq f32Bits bits.toNat

end MachineNumber

/-! ## §3. The contract of canonical numbers. -/

/-- **Canonical numbers are exact.**  The canonical form of an integer or of a
float pattern stands for the source number: both zeros for zero, the infinities
for the ends, and what is not a number has none.  The machine arithmetic computes
it without overflow.  Forms are equal exactly when they stand for one number, and
they compare as their numbers do. -/
theorem canonicalNumber_exact :
    (∀ n : Int64, (CanonicalNumber.fromI64 n).value = ExtRat.finite n.toInt ∧
      MachineNumber.fromI64 n = some (CanonicalNumber.fromI64 n).machine) ∧
    (∀ bits : UInt64,
      (CanonicalNumber.fromF64 bits).map value =
        f64Bits.value bits.toNat ∧
      MachineNumber.fromF64 bits =
        some ((CanonicalNumber.fromF64 bits).map CanonicalNumber.machine)) ∧
    (∀ bits : UInt32,
      (CanonicalNumber.fromF32 bits).map value =
        f32Bits.value bits.toNat ∧
      MachineNumber.fromF32 bits =
        some ((CanonicalNumber.fromF32 bits).map CanonicalNumber.machine)) ∧
    (∀ m n : CanonicalNumber, m.machine = n.machine ↔ m.value = n.value) ∧
    ∀ m n : CanonicalNumber, compare m n = cmp m.value n.value := by
  refine ⟨fun n => ⟨value_fromI64 n, MachineNumber.fromI64_eq n⟩,
    fun bits => ⟨CanonicalNumber.map_value_fromF64 bits, MachineNumber.fromF64_eq bits⟩,
    fun bits => ⟨CanonicalNumber.map_value_fromF32 bits, MachineNumber.fromF32_eq bits⟩,
    ?_, compare_eq⟩
  intro m n
  rw [CanonicalNumber.machine_injective.eq_iff, CanonicalNumber.value_injective.eq_iff]

end HelixDb.Property
