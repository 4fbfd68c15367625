/-
  HelixDb.Property.RangeIndexValue

  **ORDER-PRESERVING RANGE VALUES**: `project_range_value` and the key suffix
  of a range row.

  The payload is a domain byte and a self-delimiting code of the value: a
  number's class with its biased logarithm and normalized significand, a
  datetime with its sign bit flipped, or a zero-escaped, terminated string.
  Descending rows complement the payload.

    • `rangeKey` — what a payload has to sort by: the domain, then the exact
      value; stated from the value alone,
    • `range_keys_sort_by_domain_value_id` — key suffixes sort by it, then by
      entity ID, reversed in the value part for descending rows; payloads are
      equal exactly for equal values and never a proper prefix of another.
-/
import HelixDb.Property.PropertyValue
import HelixDb.Lib.ByteOrder

namespace HelixDb.Property

open HelixDb.Lib CanonicalNumber

/-! ## §1. The projection. -/

/-- The order of a range index. -/
inductive RangeIndexDirection where
  | asc
  | desc
deriving DecidableEq

/-- The longest encoded value. -/
def MAX_RANGE_ENCODED_LEN : Nat := 1024 * 1024 - 32

/-- The first byte of a number. -/
def NUMERIC_DOMAIN : UInt8 := 0x01
/-- The first byte of a datetime. -/
def DATETIME_DOMAIN : UInt8 := 0x02
/-- The first byte of a string. -/
def STRING_DOMAIN : UInt8 := 0x03

/-- The class of the least number. -/
def NEGATIVE_INFINITY_CLASS : UInt8 := 0x01
/-- The class of the negative numbers. -/
def NEGATIVE_FINITE_CLASS : UInt8 := 0x02
/-- The class of zero. -/
def ZERO_CLASS : UInt8 := 0x03
/-- The class of the positive numbers. -/
def POSITIVE_FINITE_CLASS : UInt8 := 0x04
/-- The class of the greatest number. -/
def POSITIVE_INFINITY_CLASS : UInt8 := 0x05

/-- Makes exponents unsigned. -/
def EXPONENT_BIAS : Int := 2 ^ 15

/-- A complete physical value payload, excluding the entity-ID tie-breaker. -/
structure CanonicalRangeValue where
  direction : RangeIndexDirection
  encoded : Bytes
deriving DecidableEq

/-- The complete physical range-key suffix with its entity-ID tie-breaker. -/
def CanonicalRangeValue.entityKeySuffix (value : CanonicalRangeValue) (entityId : UInt64) :
    Bytes :=
  value.encoded ++ beBytes 8 entityId.toNat

/-- Closed maintenance/query projection for every property-value variant. -/
inductive RangeValueProjection where
  | indexed (value : CanonicalRangeValue)
  | unsupported (kind : String)
  | nan
  | oversized (encodedLen maximum : Nat)
deriving DecidableEq

/-- The range type of the logarithm makes the biased one fit a `u16`. -/
def biasedExponent (exponent : Int) : Nat := (exponent + EXPONENT_BIAS).toNat

/-- A number: its class, exponent and significand, complemented below zero. -/
def putOrderedNumber : CanonicalNumber → Bytes
  | .negativeInfinity => [NEGATIVE_INFINITY_CLASS]
  | .negativeFinite f =>
    NEGATIVE_FINITE_CLASS :: (beBytes 2 (2 ^ 16 - 1 - biasedExponent f.floorLog2)
      ++ beBytes 8 (2 ^ 64 - 1 - f.normalizedSignificand))
  | .zero => [ZERO_CLASS]
  | .positiveFinite f =>
    POSITIVE_FINITE_CLASS :: (beBytes 2 (biasedExponent f.floorLog2)
      ++ beBytes 8 f.normalizedSignificand)
  | .positiveInfinity => [POSITIVE_INFINITY_CLASS]

/-- `(value as u64) ^ (1 << 63)` in big-endian order. -/
def putDateTime (millis : Int64) : Bytes := 
  beBytes 8 (millis.toUInt64 ^^^ (1 : UInt64) <<< 63).toNat

/-- Why a value has no payload. -/
inductive RangeRejection where
  | unsupported (kind : String)
  | nan
deriving DecidableEq

/-- The ascending payload of a value. -/
def rangePayload (value : PropertyValue) : Except RangeRejection Bytes :=
  match value with
  | .i64 _ | .f64 _ | .f32 _ =>
    match CanonicalNumber.fromProperty value with
    | none => .error .nan
    | some number => .ok (NUMERIC_DOMAIN :: putOrderedNumber number)
  | .dateTime millis => .ok (DATETIME_DOMAIN :: putDateTime millis)
  | .string value => .ok (STRING_DOMAIN :: terminated (utf8Bytes value))
  | .null => .error (.unsupported "Null")
  | .bool _ => .error (.unsupported "Bool")
  | .bytes _ => .error (.unsupported "Bytes")
  | .i64Array _ => .error (.unsupported "I64Array")
  | .f64Array _ => .error (.unsupported "F64Array")
  | .f32Array _ => .error (.unsupported "F32Array")
  | .stringArray _ => .error (.unsupported "StringArray")
  | .array _ => .error (.unsupported "Array")
  | .object _ => .error (.unsupported "Object")

/-- The payload as the index orders it. -/
def directed (direction : RangeIndexDirection) (payload : Bytes) : Bytes :=
  match direction with
  | .asc => payload
  | .desc => complement payload

/-- `project_range_value`. -/
def projectRangeValue (value : PropertyValue) (direction : RangeIndexDirection) :
    RangeValueProjection :=
  match rangePayload value with
  | .error (.unsupported kind) => .unsupported kind
  | .error .nan => .nan
  | .ok encoded =>
    if encoded.length > MAX_RANGE_ENCODED_LEN then
      .oversized encoded.length MAX_RANGE_ENCODED_LEN
    else
      .indexed ⟨direction, directed direction encoded⟩

/-! ## §2. What the payload sorts by. -/

/-- The numeric domain, then datetimes, then strings by their bytes. -/
abbrev RangeKey := ExtRat ⊕ₗ (ℤ ⊕ₗ Bytes)

/-- The domain and the exact value, `none` for what has no place in a range. -/
def rangeKey : PropertyValue → Option RangeKey
  | .i64 value => some (Sum.inlₗ (ExtRat.finite value.toInt))
  | .f64 bits => (CanonicalNumber.f64Bits.value bits.toNat).map Sum.inlₗ
  | .f32 bits => (CanonicalNumber.f64Bits.value bits.toNat).map Sum.inlₗ
  | .dateTime millis => some (Sum.inrₗ (Sum.inlₗ millis.toInt))
  | .string value => some (Sum.inrₗ (Sum.inrₗ (utf8Bytes value)))
  | _ => none

/-! ## §3. Payloads sort as their values. -/

theorem biasedExponent_lt (f : CanonicalFinite) : biasedExponent f.floorLog2 < 2 ^ 16 := by
  have hle := f.floorLog2_le
  unfold biasedExponent EXPONENT_BIAS
  omega

variable {f g : CanonicalFinite}

/-- Smaller magnitudes have smaller logarithm and significand codes. -/
theorem biasedExponent_lt_or_eq (h : f.magnitude < g.magnitude) :
    biasedExponent f.floorLog2 < biasedExponent g.floorLog2 ∨
      biasedExponent f.floorLog2 = biasedExponent g.floorLog2 ∧
        f.normalizedSignificand < g.normalizedSignificand := by
  have hf := f.exponent_ge
  have hf' := f.floorLog2_eq
  have hg := g.exponent_ge
  have hg' := g.floorLog2_eq
  unfold biasedExponent EXPONENT_BIAS
  rcases (f.magnitude_lt_iff g).mp h with hlt | ⟨heq, hlt⟩
  · left
    omega
  · right
    exact ⟨by rw [heq], hlt⟩

theorem sortsBefore_positiveFinite (h : f.magnitude < g.magnitude) :
    SortsBefore (putOrderedNumber (.positiveFinite f)) (putOrderedNumber (.positiveFinite g)) :=
  (sortsBefore_pair 2 8 (biasedExponent_lt_or_eq h) (biasedExponent_lt g)
    g.normalized_lt).append_left [POSITIVE_FINITE_CLASS]

/-- Negative numbers sort by their complemented magnitudes. -/
theorem sortsBefore_negativeFinite (h : g.magnitude < f.magnitude) :
    SortsBefore (putOrderedNumber (.negativeFinite f)) (putOrderedNumber (.negativeFinite g)) := by
  have hf := biasedExponent_lt f
  have hf' := f.normalized_lt
  refine SortsBefore.append_left (sortsBefore_pair 2 8 ?_ (by omega) (by omega))
    [NEGATIVE_FINITE_CLASS]
  rcases biasedExponent_lt_or_eq h with hlt | ⟨heq, hlt⟩
  · left
    omega
  · right
    omega

/-- **Number codes sort as the numbers.** -/
theorem orderedCode_number : OrderedCode putOrderedNumber value where
  same m n h := congrArg putOrderedNumber (value_injective h)
  below m n h := by
    have hpos : ∀ f : CanonicalFinite, 0 < f.magnitude := fun f => f.magnitude_pos
    cases m with
    | negativeInfinity =>
      cases n with
      | negativeInfinity => exact absurd h (lt_irrefl _)
      | _ => exact SortsBefore.of_head (by decide) _ _
    | negativeFinite f =>
      cases n with
      | negativeInfinity => exact absurd h not_lt_bot
      | negativeFinite g =>
        refine sortsBefore_negativeFinite ?_
        simpa [value] using h
      | _ => exact SortsBefore.of_head (by decide) _ _
    | zero =>
      cases n with
      | negativeInfinity => exact absurd h not_lt_bot
      | negativeFinite g =>
        have hlt : 0 < -g.magnitude := ExtRat.finite_lt_finite.mp h
        linarith [hpos g]
      | zero => exact absurd h (lt_irrefl _)
      | _ => exact SortsBefore.of_head (by decide) _ _
    | positiveFinite f =>
      cases n with
      | negativeInfinity => exact absurd h not_lt_bot
      | negativeFinite g =>
        have hlt : f.magnitude < -g.magnitude := ExtRat.finite_lt_finite.mp h
        linarith [hpos f, hpos g]
      | zero => exact absurd (ExtRat.finite_lt_finite.mp h) (hpos f).not_gt
      | positiveFinite g => exact sortsBefore_positiveFinite (ExtRat.finite_lt_finite.mp h)
      | positiveInfinity => exact SortsBefore.of_head (by decide) _ _
    | positiveInfinity => exact absurd h not_top_lt

/-- Datetime codes sort as the instants. -/
theorem orderedCode_dateTime : OrderedCode putDateTime Int64.toInt where
  same m n h := congrArg putDateTime (Int64.toInt_inj.mp h)
  below m n h := by
    have hm := flipSign_toNat m
    have hn := flipSign_toNat n
    have hlt : ((n.toUInt64 ^^^ (1 : UInt64) <<< 63).toNat) < 2 ^ 64 := UInt64.toNat_lt _
    exact sortsBefore_beBytes 8 (by omega) hlt

/-- Entity IDs sort as numbers. -/
theorem orderedCode_entityId : OrderedCode (fun id : UInt64 => beBytes 8 id.toNat) UInt64.toNat where
  same _ _ h := congrArg (beBytes 8) h
  below _ j h := sortsBefore_beBytes 8 h j.toNat_lt

/-- What a payload is made from. -/
inductive RangeScalar where
  | number (number : CanonicalNumber)
  | dateTime (millis : Int64)
  | string (value : String)

namespace RangeScalar

/-- The bytes of a scalar. -/
def payload : RangeScalar → Bytes
  | .number n => NUMERIC_DOMAIN :: putOrderedNumber n
  | .dateTime millis => DATETIME_DOMAIN :: putDateTime millis
  | .string value => STRING_DOMAIN :: terminated (utf8Bytes value)

/-- The place of a scalar in the order of its domain. -/
def key : RangeScalar → RangeKey
  | .number n => Sum.inlₗ n.value
  | .dateTime millis => Sum.inrₗ (Sum.inlₗ millis.toInt)
  | .string value => Sum.inrₗ (Sum.inrₗ (utf8Bytes value))

/-- **Payloads sort by domain, then by exact value.** -/
theorem orderedCode : OrderedCode payload key where
  same x y h := by
    cases x with
    | number m =>
      cases y with
      | number n =>
        have hvalue : m.value = n.value := Sum.inl.inj (toLex_inj.mp h)
        exact congrArg (List.cons NUMERIC_DOMAIN) (orderedCode_number.same m n hvalue)
      | dateTime n => cases toLex_inj.mp h
      | string n => cases toLex_inj.mp h
    | dateTime m =>
      cases y with
      | number n => cases toLex_inj.mp h
      | dateTime n =>
        have hvalue := Sum.inl.inj (toLex_inj.mp (Sum.inr.inj (toLex_inj.mp h)))
        exact congrArg (List.cons DATETIME_DOMAIN) (orderedCode_dateTime.same m n hvalue)
      | string n => cases toLex_inj.mp (Sum.inr.inj (toLex_inj.mp h))
    | string m =>
      cases y with
      | number n => cases toLex_inj.mp h
      | dateTime n => cases toLex_inj.mp (Sum.inr.inj (toLex_inj.mp h))
      | string n =>
        have hvalue : utf8Bytes m = utf8Bytes n :=
          Sum.inr.inj (toLex_inj.mp (Sum.inr.inj (toLex_inj.mp h)))
        show STRING_DOMAIN :: terminated (utf8Bytes m) = _
        rw [hvalue]
        rfl
  below x y h := by
    cases x with
    | number m =>
      cases y with
      | number n =>
        have hlt : m.value < n.value := Sum.Lex.inl_lt_inl_iff.mp h
        exact (orderedCode_number.below m n hlt).append_left [NUMERIC_DOMAIN]
      | _ => exact SortsBefore.of_head (by decide) _ _
    | dateTime m =>
      cases y with
      | number n => exact absurd h Sum.Lex.not_inr_lt_inl
      | dateTime n =>
        have hlt := Sum.Lex.inl_lt_inl_iff.mp (Sum.Lex.inr_lt_inr_iff.mp h)
        exact (orderedCode_dateTime.below m n hlt).append_left [DATETIME_DOMAIN]
      | string n => exact SortsBefore.of_head (by decide) _ _
    | string m =>
      cases y with
      | number n => exact absurd h Sum.Lex.not_inr_lt_inl
      | dateTime n => exact absurd (Sum.Lex.inr_lt_inr_iff.mp h) Sum.Lex.not_inr_lt_inl
      | string n =>
        have hlt := Sum.Lex.inr_lt_inr_iff.mp (Sum.Lex.inr_lt_inr_iff.mp h)
        exact (sortsBefore_terminated hlt).append_left [STRING_DOMAIN]

end RangeScalar

/-- The scalar a property value is ranged by. -/
def RangeScalar.of? : PropertyValue → Option RangeScalar
  | .i64 value => some (.number (.fromI64 value))
  | .f64 bits | .f32 bits => (fromF64 bits).map .number
  | .dateTime millis => some (.dateTime millis)
  | .string value => some (.string value)
  | _ => none

/-- The key of a value is the key of its scalar. -/
theorem rangeKey_eq_map (v : PropertyValue) : rangeKey v = (RangeScalar.of? v).map RangeScalar.key := by
  cases v with
  | i64 value =>
    show _ = some (Sum.inlₗ (CanonicalNumber.fromI64 value).value)
    rw [value_fromI64]
    rfl
  | f64 bits | f32 bits =>
    show (f64Bits.value bits.toNat).map Sum.inlₗ = ((fromF64 bits).map RangeScalar.number).map _
    rw [← map_value_fromF64, Option.map_map, Option.map_map]
    rfl
  | _ => rfl

/-- The payload of a value is the payload of its scalar. -/
theorem rangePayload_toOption (v : PropertyValue) :
    (rangePayload v).toOption = (RangeScalar.of? v).map RangeScalar.payload := by
  cases v with
  | f64 bits | f32 bits =>
    cases hn : fromF64 bits <;> simp [rangePayload, fromProperty, RangeScalar.of?, hn] <;> rfl
  | _ => rfl

/-- What the projection indexes: a payload of a bounded length, directed. -/
theorem projectRangeValue_eq_indexed {v : PropertyValue} {direction : RangeIndexDirection}
    {c : CanonicalRangeValue} (h : projectRangeValue v direction = .indexed c) :
    ∃ x : RangeScalar, c.encoded = directed direction x.payload ∧ rangeKey v = some x.key := by
  have hoption := rangePayload_toOption v
  unfold projectRangeValue at h
  cases hpayload : rangePayload v with
  | error rejection =>
    rw [hpayload] at h
    cases rejection <;> cases h
  | ok payload =>
    rw [hpayload] at h hoption
    obtain ⟨x, hx, rfl⟩ := Option.map_eq_some_iff.mp hoption.symm
    by_cases hlen : x.payload.length > MAX_RANGE_ENCODED_LEN
    · simp only [if_pos hlen] at h
      cases h
    · simp only [if_neg hlen, RangeValueProjection.indexed.injEq] at h
      exact ⟨x, by rw [← h], by rw [rangeKey_eq_map, hx, Option.map_some]⟩

/-- The code of a string fits a range key; every other value's does. -/
def FitsRange : PropertyValue → Prop
  | .string value => (STRING_DOMAIN :: terminated (utf8Bytes value)).length ≤ MAX_RANGE_ENCODED_LEN
  | _ => True

theorem putOrderedNumber_length_le (n : CanonicalNumber) : (putOrderedNumber n).length ≤ 11 := by
  cases n <;> simp [putOrderedNumber, beBytes_length]

/-- **Every value with a range key is indexed**, as the payload of a scalar with that key. -/
theorem projectRangeValue_of_rangeKey {v : PropertyValue} {k : RangeKey} (h : rangeKey v = some k)
    (hfits : FitsRange v) (direction : RangeIndexDirection) :
    ∃ x : RangeScalar, x.key = k ∧
      projectRangeValue v direction = .indexed ⟨direction, directed direction x.payload⟩ := by
  rw [rangeKey_eq_map] at h
  obtain ⟨x, hx, hkey⟩ := Option.map_eq_some_iff.mp h
  have hpayload : rangePayload v = .ok x.payload := by
    have hoption := rangePayload_toOption v
    rw [hx] at hoption
    cases hresult : rangePayload v with
    | error rejection => rw [hresult] at hoption; cases hoption
    | ok payload => rw [hresult] at hoption; exact congrArg _ (Option.some.inj hoption)
  have hlen : ¬ x.payload.length > MAX_RANGE_ENCODED_LEN := by
    rw [not_lt]
    cases x with
    | number n =>
      refine le_trans (Nat.succ_le_succ (putOrderedNumber_length_le n)) ?_
      decide
    | dateTime millis =>
      rw [RangeScalar.payload, putDateTime, List.length_cons, beBytes_length]
      decide
    | string value =>
      -- Only a string is ranged by a string.
      cases v with
      | string own =>
        cases hx
        exact hfits
      | f64 bits | f32 bits =>
        obtain ⟨n, -, hn⟩ := Option.map_eq_some_iff.mp hx
        cases hn
      | _ => cases hx
  refine ⟨x, hkey, ?_⟩
  unfold projectRangeValue
  simp only [hpayload, if_neg hlen]

/-- The order a direction gives to values. -/
def RangeIndexDirection.Before (direction : RangeIndexDirection) (x y : RangeKey) : Prop :=
  match direction with
  | .asc => x < y
  | .desc => y < x

theorem directed_eq_iff (direction : RangeIndexDirection) (x y : RangeScalar) :
    directed direction x.payload = directed direction y.payload ↔ x.key = y.key := by
  cases direction with
  | asc => exact RangeScalar.orderedCode.eq_iff x y
  | desc =>
    have hdesc := RangeScalar.orderedCode.complement.eq_iff x y
    simp only [OrderDual.toDual_inj] at hdesc
    exact hdesc

theorem beBytes_entityId_lt_iff (i j : UInt64) : beBytes 8 i.toNat < beBytes 8 j.toNat ↔ i < j := by
  have hcode := orderedCode_entityId.append_lt_iff i j [] []
  simpa only [List.append_nil, lt_irrefl, and_false, or_false, ← UInt64.lt_iff_toNat_lt]
    using hcode

/-- Key suffixes sort by the directed key of the value, then by entity ID. -/
theorem suffix_lt_iff (direction : RangeIndexDirection) (x y : RangeScalar) (i j : UInt64) :
    directed direction x.payload ++ beBytes 8 i.toNat
        < directed direction y.payload ++ beBytes 8 j.toNat ↔
      direction.Before x.key y.key ∨ x.key = y.key ∧ i < j := by
  rw [← beBytes_entityId_lt_iff]
  cases direction with
  | asc => exact RangeScalar.orderedCode.append_lt_iff x y _ _
  | desc =>
    have hdesc := RangeScalar.orderedCode.complement.append_lt_iff x y
    simp only [OrderDual.toDual_lt_toDual, OrderDual.toDual_inj] at hdesc
    exact hdesc _ _

/-- **Range keys sort by domain, exact value and entity ID.**  Every integer, float other than
    NaN, datetime and string whose code fits is indexed.  The key suffixes are in the order of the
    values' keys (reversed in a descending index), ties broken by the entity ID; payloads are
    equal exactly when the values are, and none is a proper prefix of another. -/
theorem range_keys_sort_by_domain_value_id (v w : PropertyValue) (x y : RangeKey)
    (hv : rangeKey v = some x) (hw : rangeKey w = some y) (hfv : FitsRange v) (hfw : FitsRange w)
    (direction : RangeIndexDirection) (i j : UInt64) :
    ∃ cv cw, projectRangeValue v direction = .indexed cv ∧
      projectRangeValue w direction = .indexed cw ∧
      (cv.entityKeySuffix i < cw.entityKeySuffix j ↔
        direction.Before x y ∨ x = y ∧ i < j) ∧
      (cv.encoded = cw.encoded ↔ x = y) ∧
      (cv.encoded <+: cw.encoded → cv.encoded = cw.encoded) := by
  obtain ⟨m, rfl, hm⟩ := projectRangeValue_of_rangeKey hv hfv direction
  obtain ⟨n, rfl, hn⟩ := projectRangeValue_of_rangeKey hw hfw direction
  refine ⟨_, _, hm, hn, suffix_lt_iff direction m n i j, directed_eq_iff direction m n, ?_⟩
  cases direction with
  | asc => exact RangeScalar.orderedCode.eq_of_isPrefix
  | desc => exact RangeScalar.orderedCode.complement.eq_of_isPrefix

/-- A string with a zero byte and a datetime in a descending index. -/
theorem range_keys_sort_string_and_datetime :
    ∃ x y, rangeKey (.string "a\x00b") = some x ∧ rangeKey (.dateTime (-1)) = some y ∧
      ∃ cv cw, projectRangeValue (.string "a\x00b") .desc = .indexed cv ∧
        projectRangeValue (.dateTime (-1)) .desc = .indexed cw ∧
        (cv.entityKeySuffix 1 < cw.entityKeySuffix 2 ↔
          RangeIndexDirection.desc.Before x y ∨ x = y ∧ (1 : UInt64) < 2) ∧
        (cv.encoded = cw.encoded ↔ x = y) ∧
        (cv.encoded <+: cw.encoded → cv.encoded = cw.encoded) := by
  have hfits : FitsRange (.string "a\x00b") := by
    show List.length _ ≤ MAX_RANGE_ENCODED_LEN
    decide +kernel
  exact ⟨_, _, rfl, rfl, range_keys_sort_by_domain_value_id (.string "a\x00b") (.dateTime (-1)) _ _
    rfl rfl hfits trivial .desc 1 2⟩

end HelixDb.Property
