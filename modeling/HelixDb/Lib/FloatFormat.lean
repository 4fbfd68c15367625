/-
  HelixDb.Lib.FloatFormat

  **THE FIELDS OF BINARY INTERCHANGE FORMATS**, and exact widening.

  A pattern is its sign, exponent and fraction, and but for the two zeros a
  number has one pattern.  A format whose exponents reach below the subnormals
  of another and above its largest finite number, with at least as many fraction
  bits, holds every number of the other; a subnormal of the narrow format gets a
  hidden bit there.

    • `value_compose_finite`, `value_compose_special` — the number of given fields,
    • `value_inj` — **a number has one pattern**, zero apart,
    • `value_widen` — **widening keeps the number**.
-/
import HelixDb.Lib.Dyadic

namespace HelixDb.Lib

variable {bits : Nat}

namespace FloatLayout

/-! ## §1. Patterns from fields. -/

section Compose

variable (layout : FloatLayout)

/-- The pattern with the given fields. -/
def compose (negative : Bool) (exponent fraction : Nat) : Nat :=
  negative.toNat * 2 ^ (layout.fractionBits + layout.exponentBits)
    + exponent * 2 ^ layout.fractionBits + fraction

variable {layout} {negative : Bool} {exponent fraction : Nat}

theorem fields_lt (hexponent : exponent < 2 ^ layout.exponentBits)
    (hfraction : fraction < 2 ^ layout.fractionBits) :
    exponent * 2 ^ layout.fractionBits + fraction
      < 2 ^ (layout.fractionBits + layout.exponentBits) := by
  calc exponent * 2 ^ layout.fractionBits + fraction
      < (exponent + 1) * 2 ^ layout.fractionBits := by rw [Nat.add_mul]; omega
    _ ≤ 2 ^ layout.exponentBits * 2 ^ layout.fractionBits := Nat.mul_le_mul_right _ hexponent
    _ = 2 ^ (layout.fractionBits + layout.exponentBits) := by rw [pow_add, mul_comm]

theorem compose_lt (hexponent : exponent < 2 ^ layout.exponentBits)
    (hfraction : fraction < 2 ^ layout.fractionBits) :
    layout.compose negative exponent fraction
      < 2 ^ (layout.fractionBits + layout.exponentBits + 1) := by
  have hfields := fields_lt hexponent hfraction
  unfold compose
  cases negative with
  | false => simp only [Bool.toNat_false]; omega
  | true => simp only [Bool.toNat_true]; omega

/-- Sign and exponent stand above the fraction. -/
theorem compose_eq : layout.compose negative exponent fraction
    = (negative.toNat * 2 ^ layout.exponentBits + exponent) * 2 ^ layout.fractionBits
        + fraction := by
  unfold compose
  rw [pow_add, Nat.add_mul, Nat.mul_assoc, Nat.mul_comm (2 ^ layout.exponentBits)]

theorem fractionField_compose (hfraction : fraction < 2 ^ layout.fractionBits) :
    layout.fractionField (layout.compose negative exponent fraction) = fraction := by
  unfold fractionField
  rw [compose_eq, Nat.add_comm, Nat.add_mul_mod_self_right, Nat.mod_eq_of_lt hfraction]

theorem exponentField_compose (hexponent : exponent < 2 ^ layout.exponentBits)
    (hfraction : fraction < 2 ^ layout.fractionBits) :
    layout.exponentField (layout.compose negative exponent fraction) = exponent := by
  unfold exponentField
  rw [compose_eq, Nat.add_comm, Nat.add_mul_div_right _ _ (Nat.two_pow_pos _),
    Nat.div_eq_of_lt hfraction, Nat.zero_add, Nat.add_comm, Nat.add_mul_mod_self_right,
    Nat.mod_eq_of_lt hexponent]

theorem negative_compose (hexponent : exponent < 2 ^ layout.exponentBits)
    (hfraction : fraction < 2 ^ layout.fractionBits) :
    layout.negative (layout.compose negative exponent fraction) = negative := by
  have hfields := fields_lt hexponent hfraction
  have hdiv : layout.compose negative exponent fraction
      / 2 ^ (layout.fractionBits + layout.exponentBits) = negative.toNat := by
    unfold compose
    rw [Nat.add_assoc, Nat.add_comm, Nat.add_mul_div_right _ _ (Nat.two_pow_pos _),
      Nat.div_eq_of_lt hfields, Nat.zero_add]
  unfold FloatLayout.negative
  rw [hdiv]
  cases negative <;> rfl

/-- The number of finite fields. -/
theorem value_compose_finite (hexponent : exponent < 2 ^ layout.exponentBits - 1)
    (hfraction : fraction < 2 ^ layout.fractionBits) :
    layout.value (layout.compose negative exponent fraction)
      = some (ExtRat.finite ((if negative then -1 else 1) *
          if exponent = 0 then dyadic fraction (1 - layout.bias - layout.fractionBits)
          else dyadic (2 ^ layout.fractionBits + fraction)
            (exponent - layout.bias - layout.fractionBits))) := by
  have hlt : exponent < 2 ^ layout.exponentBits := by omega
  have hspecial : ¬ layout.Special (layout.compose negative exponent fraction) := by
    unfold Special
    rw [exponentField_compose hlt hfraction]
    omega
  unfold value magnitude
  rw [if_neg hspecial, exponentField_compose hlt hfraction, fractionField_compose hfraction,
    negative_compose hlt hfraction]

/-- The number of special fields. -/
theorem value_compose_special (hfraction : fraction < 2 ^ layout.fractionBits) :
    layout.value (layout.compose negative (2 ^ layout.exponentBits - 1) fraction)
      = if fraction = 0 then some (if negative then ⊥ else ⊤) else none := by
  have hlt : 2 ^ layout.exponentBits - 1 < 2 ^ layout.exponentBits :=
    Nat.sub_lt (Nat.two_pow_pos _) (by decide)
  have hspecial : layout.Special
      (layout.compose negative (2 ^ layout.exponentBits - 1) fraction) :=
    exponentField_compose hlt hfraction
  unfold value
  rw [if_pos hspecial, fractionField_compose hfraction, negative_compose hlt hfraction]

end Compose

/-! ## §2. A number has one pattern. -/

section Patterns

variable (layout : FloatLayout) {a b : Nat}

/-- A pattern is put together from its fields. -/
theorem compose_fields (hbits : bits < 2 ^ (layout.fractionBits + layout.exponentBits + 1)) :
    layout.compose (layout.negative bits) (layout.exponentField bits) (layout.fractionField bits)
      = bits := by
  have hsign : (layout.negative bits).toNat
      = bits / 2 ^ (layout.fractionBits + layout.exponentBits) := by
    have hlt : bits / 2 ^ (layout.fractionBits + layout.exponentBits) < 2 := by
      rwa [Nat.div_lt_iff_lt_mul (Nat.two_pow_pos _), ← pow_succ']
    unfold FloatLayout.negative
    interval_cases h : bits / 2 ^ (layout.fractionBits + layout.exponentBits) <;> simp
  have hexponent : bits / 2 ^ layout.fractionBits
      = bits / 2 ^ (layout.fractionBits + layout.exponentBits) * 2 ^ layout.exponentBits
        + layout.exponentField bits := by
    rw [pow_add, ← Nat.div_div_eq_div_mul]
    exact (Nat.div_add_mod' _ _).symm
  rw [compose_eq, hsign, ← hexponent]
  exact Nat.div_add_mod' _ _

/-- The significand with its hidden bit, if the exponent has one. -/
def significand (bits : Nat) : Nat :=
  if layout.exponentField bits = 0 then layout.fractionField bits
  else 2 ^ layout.fractionBits + layout.fractionField bits

/-- The exponent without its bias; subnormals share the least one. -/
def scale (bits : Nat) : Int :=
  max (layout.exponentField bits : Int) 1 - layout.bias - layout.fractionBits

theorem magnitude_eq_dyadic (bits : Nat) :
    layout.magnitude bits = dyadic (layout.significand bits) (layout.scale bits) := by
  unfold magnitude significand scale
  by_cases h : layout.exponentField bits = 0
  · rw [h]
    rfl
  · rw [if_neg h, if_neg h, max_eq_left (by omega)]

theorem significand_lt (bits : Nat) : layout.significand bits < 2 ^ (layout.fractionBits + 1) := by
  have hfraction := layout.fractionField_lt bits
  unfold significand
  split <;> omega

/-- A larger scale is a larger number: only the least scale has no hidden bit. -/
theorem magnitude_lt_of_scale_lt (h : layout.scale a < layout.scale b) :
    layout.magnitude a < layout.magnitude b := by
  have hne : layout.exponentField b ≠ 0 := by
    unfold scale at h
    omega
  have hlow : 2 ^ layout.fractionBits ≤ layout.significand b := by
    rw [significand, if_neg hne]
    omega
  rw [magnitude_eq_dyadic, magnitude_eq_dyadic]
  exact dyadic_lt_of_exponent_lt (layout.significand_lt a) hlow h

theorem fields_eq_of_magnitude_eq (h : layout.magnitude a = layout.magnitude b) :
    layout.exponentField a = layout.exponentField b ∧
      layout.fractionField a = layout.fractionField b := by
  have hscale : layout.scale a = layout.scale b := by
    rcases lt_trichotomy (layout.scale a) (layout.scale b) with hlt | heq | hlt
    · exact absurd h (layout.magnitude_lt_of_scale_lt hlt).ne
    · exact heq
    · exact absurd h.symm (layout.magnitude_lt_of_scale_lt hlt).ne
  rw [magnitude_eq_dyadic, magnitude_eq_dyadic, hscale, dyadic_inj] at h
  have hfa := layout.fractionField_lt a
  have hfb := layout.fractionField_lt b
  unfold scale at hscale
  unfold significand at h
  -- At the least scale the hidden bit tells the exponents zero and one apart.
  by_cases ha : layout.exponentField a = 0
  · by_cases hb : layout.exponentField b = 0
    · rw [if_pos ha, if_pos hb] at h
      exact ⟨ha.trans hb.symm, h⟩
    · rw [if_pos ha, if_neg hb] at h
      omega
  · by_cases hb : layout.exponentField b = 0
    · rw [if_neg ha, if_pos hb] at h
      omega
    · rw [if_neg ha, if_neg hb] at h
      omega

theorem magnitude_nonneg (bits : Nat) : 0 ≤ layout.magnitude bits := by
  rw [magnitude_eq_dyadic]
  exact mul_nonneg (Nat.cast_nonneg _) (zpow_nonneg (by norm_num) _)

theorem fields_eq_zero_of_magnitude_eq_zero (h : layout.magnitude bits = 0) :
    layout.exponentField bits = 0 ∧ layout.fractionField bits = 0 := by
  rw [magnitude_eq_dyadic, dyadic, mul_eq_zero, Nat.cast_eq_zero] at h
  have hsignificand : layout.significand bits = 0 :=
    h.resolve_right (zpow_ne_zero _ (by norm_num))
  have hpow := Nat.two_pow_pos layout.fractionBits
  unfold significand at hsignificand
  split at hsignificand
  · rename_i hexponent
    exact ⟨hexponent, hsignificand⟩
  · omega

/-- A pattern with sign and magnitude fields zero. -/
theorem mod_eq_zero_of_fields (hbits : bits < 2 ^ (layout.fractionBits + layout.exponentBits + 1))
    (h : layout.exponentField bits = 0 ∧ layout.fractionField bits = 0) :
    bits % 2 ^ (layout.fractionBits + layout.exponentBits) = 0 := by
  rw [← layout.compose_fields hbits, h.1, h.2]
  simp [compose]

theorem not_special_of_value {q : ℚ}
    (h : layout.value bits = some (ExtRat.finite q)) : ¬ layout.Special bits := by
  intro hspecial
  rw [value, if_pos hspecial] at h
  split at h
  · rw [Option.some.injEq] at h
    split at h
    · exact ExtRat.bot_lt_finite.ne h
    · exact ExtRat.finite_lt_top.ne' h
  · cases h

theorem fields_eq_of_special {v : ExtRat} (hspecial : layout.Special bits)
    (h : layout.value bits = some v) :
    layout.fractionField bits = 0 ∧ v = if layout.negative bits then ⊥ else ⊤ := by
  rw [value, if_pos hspecial] at h
  split at h
  · rename_i hfraction
    exact ⟨hfraction, (Option.some.inj h).symm⟩
  · cases h

/-- **A number has one pattern**, but for the zeros. -/
theorem value_inj {v : ExtRat} (ha : a < 2 ^ (layout.fractionBits + layout.exponentBits + 1))
    (hb : b < 2 ^ (layout.fractionBits + layout.exponentBits + 1))
    (hva : layout.value a = some v) (hvb : layout.value b = some v) :
    a = b ∨ a % 2 ^ (layout.fractionBits + layout.exponentBits) = 0 ∧
      b % 2 ^ (layout.fractionBits + layout.exponentBits) = 0 := by
  by_cases hspecial : layout.Special a
  · obtain ⟨hfa, rfl⟩ := layout.fields_eq_of_special hspecial hva
    have hspecial' : layout.Special b := by
      by_contra hfinite
      rw [value, if_neg hfinite, Option.some.injEq] at hvb
      cases hna : layout.negative a with
      | true =>
        rw [hna] at hvb
        exact ExtRat.bot_lt_finite.ne' hvb
      | false =>
        rw [hna] at hvb
        exact ExtRat.finite_lt_top.ne hvb
    obtain ⟨hfb, hsign⟩ := layout.fields_eq_of_special hspecial' hvb
    have hneg : layout.negative a = layout.negative b := by
      cases hna : layout.negative a <;> cases hnb : layout.negative b <;> simp_all
    left
    rw [← layout.compose_fields ha, ← layout.compose_fields hb, hfa, hfb, hneg, hspecial, hspecial']
  · rw [value, if_neg hspecial] at hva
    rw [← hva] at hvb
    have hspecial' := layout.not_special_of_value hvb
    rw [value, if_neg hspecial', Option.some.injEq, ExtRat.finite_inj] at hvb
    by_cases hzero : layout.magnitude a = 0
    · have hzero' : layout.magnitude b = 0 := by
        rw [hzero] at hvb
        split at hvb <;> linarith
      exact .inr ⟨layout.mod_eq_zero_of_fields ha (layout.fields_eq_zero_of_magnitude_eq_zero hzero),
        layout.mod_eq_zero_of_fields hb (layout.fields_eq_zero_of_magnitude_eq_zero hzero')⟩
    · have hpos : 0 < layout.magnitude a :=
        lt_of_le_of_ne (layout.magnitude_nonneg a) (Ne.symm hzero)
      have hnonneg := layout.magnitude_nonneg b
      -- Opposite signs would put a positive number below a negative one.
      have hsame : layout.negative a = layout.negative b ∧
          layout.magnitude a = layout.magnitude b := by
        cases hna : layout.negative a <;> cases hnb : layout.negative b <;>
          simp only [hna, hnb, if_true, Bool.false_eq_true, if_false] at hvb <;>
          first
            | exact ⟨rfl, by linarith⟩
            | (exfalso; linarith)
      obtain ⟨hexponent, hfraction⟩ := layout.fields_eq_of_magnitude_eq hsame.2
      left
      rw [← layout.compose_fields ha, ← layout.compose_fields hb, hsame.1, hexponent, hfraction]

end Patterns

/-! ## §3. Widening. -/

/-- The wide format holds every number of the narrow one. -/
structure Widens (narrow wide : FloatLayout) : Prop where
  fraction_le : narrow.fractionBits ≤ wide.fractionBits
  subnormal_normal : 0 < 1 - narrow.bias - narrow.fractionBits + wide.bias
  exponent_lt : (2 : Int) ^ narrow.exponentBits - 2 - narrow.bias + wide.bias
    < 2 ^ wide.exponentBits - 1

/-- The wide pattern of a narrow one. -/
def widen (narrow wide : FloatLayout) (bits : Nat) : Nat :=
  let exponent := narrow.exponentField bits
  let fraction := narrow.fractionField bits
  let shift := wide.fractionBits - narrow.fractionBits
  if narrow.Special bits then
    wide.compose (narrow.negative bits) (2 ^ wide.exponentBits - 1) (fraction * 2 ^ shift)
  else if exponent ≠ 0 then
    wide.compose (narrow.negative bits) (exponent - narrow.bias + wide.bias).toNat
      (fraction * 2 ^ shift)
  else if fraction = 0 then
    wide.compose (narrow.negative bits) 0 0
  else
    -- The leading bit of a subnormal becomes the hidden one.
    let leading := fraction.log2
    wide.compose (narrow.negative bits)
      (1 - narrow.bias - narrow.fractionBits + leading + wide.bias).toNat
      ((fraction - 2 ^ leading) * 2 ^ (wide.fractionBits - leading))

variable {narrow wide : FloatLayout} (bits : Nat)

theorem Widens.shifted_lt (h : Widens narrow wide) :
    narrow.fractionField bits * 2 ^ (wide.fractionBits - narrow.fractionBits)
      < 2 ^ wide.fractionBits := by
  calc narrow.fractionField bits * 2 ^ (wide.fractionBits - narrow.fractionBits)
      < 2 ^ narrow.fractionBits * 2 ^ (wide.fractionBits - narrow.fractionBits) :=
        Nat.mul_lt_mul_of_pos_right (narrow.fractionField_lt bits) (Nat.two_pow_pos _)
    _ = 2 ^ wide.fractionBits := by rw [← pow_add, Nat.add_sub_of_le h.fraction_le]

/-- A finite pattern's exponent stays below the special one. -/
theorem exponentField_le (h : ¬ narrow.Special bits) :
    (narrow.exponentField bits : Int) ≤ 2 ^ narrow.exponentBits - 2 := by
  have hlt := narrow.exponentField_lt bits
  have hne : narrow.exponentField bits ≠ 2 ^ narrow.exponentBits - 1 := h
  have hcast : ((2 ^ narrow.exponentBits : Nat) : Int) = 2 ^ narrow.exponentBits := by push_cast; rfl
  omega

/-- Rescaled fields of a positive exponent: the significand `n * 2 ^ k` fills
the wide fraction and its hidden bit. -/
theorem value_compose_scaled {s : Bool} {n k fraction : Nat} {e : Int}
    (hpos : 0 < e + wide.bias + wide.fractionBits - k)
    (hlt : e + wide.bias + wide.fractionBits - k < 2 ^ wide.exponentBits - 1)
    (hfraction : fraction < 2 ^ wide.fractionBits)
    (hscaled : 2 ^ wide.fractionBits + fraction = n * 2 ^ k) :
    wide.value (wide.compose s (e + wide.bias + wide.fractionBits - k).toNat fraction)
      = some (ExtRat.finite ((if s then -1 else 1) * dyadic n e)) := by
  have hcast : ((2 ^ wide.exponentBits : Nat) : Int) = 2 ^ wide.exponentBits := by push_cast; rfl
  have hexponent : (e + wide.bias + wide.fractionBits - k).toNat < 2 ^ wide.exponentBits - 1 := by
    omega
  have hne : (e + wide.bias + wide.fractionBits - k).toNat ≠ 0 := by omega
  have hback : ((e + wide.bias + wide.fractionBits - k).toNat : Int) - wide.bias
      - wide.fractionBits + k = e := by omega
  rw [value_compose_finite hexponent hfraction, if_neg hne, hscaled, dyadic_mul_pow, hback]

/-- A subnormal fraction without its leading bit. -/
theorem subnormal_fraction {fraction w : Nat} (hne : fraction ≠ 0) (hw : fraction.log2 ≤ w) :
    (fraction - 2 ^ fraction.log2) * 2 ^ (w - fraction.log2) < 2 ^ w ∧
      2 ^ w + (fraction - 2 ^ fraction.log2) * 2 ^ (w - fraction.log2)
        = fraction * 2 ^ (w - fraction.log2) := by
  have hlow : 2 ^ fraction.log2 ≤ fraction := Nat.log2_self_le hne
  have hhigh : fraction < 2 ^ (fraction.log2 + 1) := Nat.lt_log2_self
  have hpow : 2 ^ w = 2 ^ fraction.log2 * 2 ^ (w - fraction.log2) := by
    rw [← pow_add, Nat.add_sub_of_le hw]
  constructor
  · rw [hpow]
    exact Nat.mul_lt_mul_of_pos_right (by omega) (Nat.two_pow_pos _)
  · rw [hpow, ← Nat.add_mul, Nat.add_sub_of_le hlow]

theorem widen_lt (h : Widens narrow wide) :
    narrow.widen wide bits < 2 ^ (wide.fractionBits + wide.exponentBits + 1) := by
  have hshifted := h.shifted_lt bits
  have hexponents := h.exponent_lt
  have hwide := Nat.two_pow_pos wide.exponentBits
  have hcast : ((2 ^ wide.exponentBits : Nat) : Int) = 2 ^ wide.exponentBits := by push_cast; rfl
  unfold widen
  split_ifs with hspecial
  · exact compose_lt (Nat.sub_lt (Nat.two_pow_pos _) (by decide)) hshifted
  · have hle := exponentField_le bits hspecial
    by_cases hexponent : narrow.exponentField bits = 0
    · rw [if_neg (not_not.mpr hexponent)]
      split_ifs with hzero
      · exact compose_lt (Nat.two_pow_pos _) (Nat.two_pow_pos _)
      · have hlog : (narrow.fractionField bits).log2 < narrow.fractionBits :=
          (Nat.log2_lt hzero).mpr (narrow.fractionField_lt bits)
        exact compose_lt (by omega)
          (subnormal_fraction hzero (hlog.le.trans h.fraction_le)).1
    · rw [if_pos hexponent]
      exact compose_lt (by omega) hshifted

/-- **Widening keeps the number.** -/
theorem value_widen (h : Widens narrow wide) :
    wide.value (narrow.widen wide bits) = narrow.value bits := by
  have hshifted := h.shifted_lt bits
  have hfraction := h.fraction_le
  have hsubnormal := h.subnormal_normal
  have hexponents := h.exponent_lt
  unfold widen
  by_cases hspecial : narrow.Special bits
  · have hzero : narrow.fractionField bits * 2 ^ (wide.fractionBits - narrow.fractionBits) = 0
        ↔ narrow.fractionField bits = 0 := by
      simp
    have hnarrow : narrow.value bits = if narrow.fractionField bits = 0 then
        some (if narrow.negative bits then ⊥ else ⊤) else none := by
      rw [value, if_pos hspecial]
    rw [if_pos hspecial, value_compose_special hshifted, hnarrow]
    simp
  · have hle := exponentField_le bits hspecial
    have hnarrow : narrow.value bits = some (ExtRat.finite
        ((if narrow.negative bits then -1 else 1) * narrow.magnitude bits)) := by
      rw [value, if_neg hspecial]
    rw [if_neg hspecial, hnarrow, magnitude]
    by_cases hexponent : narrow.exponentField bits = 0
    · rw [if_neg (not_not.mpr hexponent), if_pos hexponent]
      by_cases hzero : narrow.fractionField bits = 0
      · have hpos : 0 < 2 ^ wide.exponentBits - 1 := by
          have hcast : ((2 ^ wide.exponentBits : Nat) : Int) = 2 ^ wide.exponentBits := by
            rfl
          omega
        rw [if_pos hzero, value_compose_finite hpos (Nat.two_pow_pos _), hzero]
        simp [dyadic]
      · -- A subnormal: the fraction's leading bit is hidden in the wide format.
        have hlog : (narrow.fractionField bits).log2 < narrow.fractionBits :=
          (Nat.log2_lt hzero).mpr (narrow.fractionField_lt bits)
        obtain ⟨hlt, hjoin⟩ := subnormal_fraction (w := wide.fractionBits) hzero (by omega)
        have hwide := value_compose_scaled (s := narrow.negative bits)
          (e := 1 - narrow.bias - narrow.fractionBits) (by omega) (by omega) hlt hjoin
        have hfield : (1 - narrow.bias - narrow.fractionBits + (narrow.fractionField bits).log2
              + wide.bias).toNat
            = (1 - narrow.bias - narrow.fractionBits + wide.bias + wide.fractionBits
                - (wide.fractionBits - (narrow.fractionField bits).log2 : Nat)).toNat := by
          omega
        rw [if_neg hzero, ← hwide, ← hfield]
    · have hjoin : 2 ^ wide.fractionBits + narrow.fractionField bits
            * 2 ^ (wide.fractionBits - narrow.fractionBits)
          = (2 ^ narrow.fractionBits + narrow.fractionField bits)
            * 2 ^ (wide.fractionBits - narrow.fractionBits) := by
        rw [Nat.add_mul, ← pow_add, Nat.add_sub_of_le hfraction]
      have hwide := value_compose_scaled (s := narrow.negative bits)
        (e := narrow.exponentField bits - narrow.bias - narrow.fractionBits) (by omega) (by omega)
        hshifted hjoin
      rw [if_pos hexponent, if_neg hexponent, ← hwide]
      congr 3
      omega

end FloatLayout

end HelixDb.Lib
