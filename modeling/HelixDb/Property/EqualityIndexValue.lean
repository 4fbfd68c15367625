/-
  HelixDb.Property.EqualityIndexValue

  **CANONICAL EQUALITY BYTES**: classification, encoding and validation of
  equality-index values.

  `prepareEqualityValue` classifies a value and computes the exact length of
  its canonical bytes; `PreparedEqualityValue.encode` writes them; a row read
  back passes `validateCanonical`.

    • `canonical_equality_bytes_characterize` — for indexed values the bytes
      are equal exactly when `eq_value` holds, their number is the prepared
      length and validation accepts them.

  The digest that accompanies the bytes is a hash of them and is not modelled.
-/
import HelixDb.Property.PropertyValue
import HelixDb.Encoding.Error
import HelixDb.Lib.SelfDelimiting
import HelixDb.Lib.Saturating

namespace HelixDb.Property

open HelixDb.Lib HelixDb.Encoding CanonicalNumber List
open Reads (bind' bind_nil takeRaw_of_length rejectIf)

/-! ## §1. Classification. -/

/-- The longest canonical value an index holds. -/
def MAX_EQUALITY_CANONICAL_LEN : Nat := 1024 * 1024 - 64

/-- The byte of a tag. -/
def TAG_LEN : Nat := 1
/-- The bytes of a count or length. -/
def COUNT_LEN : Nat := 4

/-- What is encoded. -/
inductive Kind where
  | bool (value : Bool)
  | number (value : CanonicalNumber)
  | dateTime (value : Int64)
  | string (value : String)
  | bytes (value : Bytes)
  | integers (values : List Int64)
  | doubles (values : List UInt64)
  | floats (values : List UInt32)
  | strings (values : List String)
deriving DecidableEq

/-- A valid indexed value and its exact canonical length. -/
structure PreparedEqualityValue where
  kind : Kind
  encodedLen : Nat
deriving DecidableEq

/-- Closed maintenance/lookup projection for every property-value variant. -/
inductive EqualityValueProjection (α : Type) where
  | indexed (value : α)
  | authoritativeNull
  | nonReflexive
  | unsupported (kind : String)
  | oversized (encodedLen maximum : Nat)
deriving DecidableEq

/-- The refusal of a value that is too long. -/
def oversized {α : Type} (encodedLen : Nat) : EqualityValueProjection α :=
  .oversized encodedLen MAX_EQUALITY_CANONICAL_LEN

/-- The length of a number. -/
def numberLen : CanonicalNumber → Nat
  | .negativeFinite _ | .positiveFinite _ => TAG_LEN + 2 + 8
  | .negativeInfinity | .zero | .positiveInfinity => TAG_LEN

/-- The length of a float array's bytes, `none` where a float is not a number. -/
def numbersLen {α : Type} (canonical : α → Option CanonicalNumber) (values : List α) :
    Option Nat :=
  values.foldlM (fun length value => do
    let number ← canonical value
    return saturatingAdd length (numberLen number)) (TAG_LEN + COUNT_LEN)

/-- The length of a string array's bytes, or the length of a string too long
for its length prefix. -/
def stringsLen (values : List String) : Except Nat Nat :=
  values.foldlM (fun length value =>
    if (utf8Bytes value).length ≥ 2 ^ 32 then throw (utf8Bytes value).length
    else return saturatingAdd (saturatingAdd length COUNT_LEN) (utf8Bytes value).length)
    (TAG_LEN + COUNT_LEN)

/-- The last check of the classification. -/
def bounded (kind : Kind) (encodedLen : Nat) : EqualityValueProjection PreparedEqualityValue :=
  if encodedLen > MAX_EQUALITY_CANONICAL_LEN then oversized encodedLen
  else .indexed ⟨kind, encodedLen⟩

/-- `prepare_equality_value`: the value by kind, with its encoded length. -/
def prepareEqualityValue (value : PropertyValue) :
    EqualityValueProjection PreparedEqualityValue :=
  match value with
  | .null => .authoritativeNull
  | .array _ => .unsupported "Array"
  | .object _ => .unsupported "Object"
  | .bool value => bounded (.bool value) (TAG_LEN + 1)
  | .i64 _ | .f64 _ | .f32 _ =>
    match fromProperty value with
    | none => .nonReflexive
    | some number => bounded (.number number) (TAG_LEN + numberLen number)
  | .dateTime value => bounded (.dateTime value) (TAG_LEN + 8)
  | .string value =>
    if (utf8Bytes value).length ≥ 2 ^ 32 then oversized TAG_LEN
    else bounded (.string value) (TAG_LEN + COUNT_LEN + (utf8Bytes value).length)
  | .bytes value =>
    if value.length ≥ 2 ^ 32 then oversized TAG_LEN
    else bounded (.bytes value) (TAG_LEN + COUNT_LEN + value.length)
  | .i64Array values =>
    if values.length ≥ 2 ^ 32 then oversized TAG_LEN
    else bounded (.integers values)
      (saturatingAdd (saturatingMul values.length 8) (TAG_LEN + COUNT_LEN))
  | .f64Array values =>
    if values.length ≥ 2 ^ 32 then oversized values.length
    else match numbersLen fromF64 values with
      | none => .nonReflexive
      | some length => bounded (.doubles values) length
  | .f32Array values =>
    if values.length ≥ 2 ^ 32 then oversized values.length
    else match numbersLen fromF32 values with
      | none => .nonReflexive
      | some length => bounded (.floats values) length
  | .stringArray values =>
    if values.length ≥ 2 ^ 32 then oversized values.length
    else match stringsLen values with
      | .error length => oversized length
      | .ok length => bounded (.strings values) length

/-! ## §2. Encoding. -/

/-- The tag of a boolean. -/
def BOOL_TAG : UInt8 := 0x01
/-- The tag of a number. -/
def NUMBER_TAG : UInt8 := 0x02
/-- The tag of a datetime. -/
def DATETIME_TAG : UInt8 := 0x03
/-- The tag of a string. -/
def STRING_TAG : UInt8 := 0x04
/-- The tag of bytes. -/
def BYTES_TAG : UInt8 := 0x05
/-- The tag of an array of integers. -/
def I64_ARRAY_TAG : UInt8 := 0x06
/-- The tag of an array of `f64`s. -/
def F64_ARRAY_TAG : UInt8 := 0x07
/-- The tag of an array of `f32`s. -/
def F32_ARRAY_TAG : UInt8 := 0x08
/-- The tag of an array of strings. -/
def STRING_ARRAY_TAG : UInt8 := 0x09

/-- The class of the least number. -/
def NEGATIVE_INFINITY_TAG : UInt8 := 0x01
/-- The class of the negative numbers. -/
def NEGATIVE_FINITE_TAG : UInt8 := 0x02
/-- The class of zero. -/
def ZERO_TAG : UInt8 := 0x03
/-- The class of the positive numbers. -/
def POSITIVE_FINITE_TAG : UInt8 := 0x04
/-- The class of the greatest number. -/
def POSITIVE_INFINITY_TAG : UInt8 := 0x05

/-- A number below `2 ^ 15` in absolute value, in two's complement. -/
def putI16 (n : Int) : Bytes := beBytes 2 (n % 2 ^ 16).toNat

/-- A big-endian `i64`. -/
def putI64 (n : Int64) : Bytes := beBytes 8 n.toUInt64.toNat

/-- The exponent and the odd significand. -/
def putFinite (f : CanonicalFinite) : Bytes := putI16 f.exponent ++ beBytes 8 f.oddSignificand

/-- The bytes of a number: its class, and what tells it apart within it. -/
def putNumber : CanonicalNumber → Bytes
  | .negativeInfinity => [NEGATIVE_INFINITY_TAG]
  | .negativeFinite f => NEGATIVE_FINITE_TAG :: putFinite f
  | .zero => [ZERO_TAG]
  | .positiveFinite f => POSITIVE_FINITE_TAG :: putFinite f
  | .positiveInfinity => [POSITIVE_INFINITY_TAG]

/-- `put_count(...).expect(message)`: the error is the panic's message. -/
def putCount (message : String) (count : Nat) : Except String Bytes :=
  if count < 2 ^ 32 then .ok (beBytes COUNT_LEN count) else .error message

/-- A length and the bytes. -/
def putLengthDelimited (message : String) (value : Bytes) : Except String Bytes := do
  let length ← putCount message value.length
  return length ++ value

/-- The members of an array, one after another. -/
def putEach {α : Type} (put : α → Except String Bytes) (values : List α) :
    Except String Bytes := do
  let members ← values.mapM put
  return members.flatten

/-- A number that was checked before; `message` is the panic's. -/
def expectNumber (message : String) (number : Option CanonicalNumber) : Except String Bytes :=
  match number with
  | some number => .ok (putNumber number)
  | none => .error message

/-- The canonical bytes of a prepared value. -/
def Kind.put : Kind → Except String Bytes
  | .bool value => return [BOOL_TAG, if value then 1 else 0]
  | .number value => return NUMBER_TAG :: putNumber value
  | .dateTime value => return DATETIME_TAG :: putI64 value
  | .string value => do
    let bytes ← putLengthDelimited "prepared string length" (utf8Bytes value)
    return STRING_TAG :: bytes
  | .bytes value => do
    let bytes ← putLengthDelimited "prepared byte length" value
    return BYTES_TAG :: bytes
  | .integers values => do
    let count ← putCount "prepared integer count" values.length
    return I64_ARRAY_TAG :: (count ++ values.flatMap putI64)
  | .doubles values => do
    let count ← putCount "prepared double count" values.length
    let members ← putEach
      (fun value => expectNumber "prepared non-NaN double" (fromF64 value)) values
    return F64_ARRAY_TAG :: (count ++ members)
  | .floats values => do
    let count ← putCount "prepared float count" values.length
    let members ← putEach
      (fun value => expectNumber "prepared non-NaN float" (fromF32 value)) values
    return F32_ARRAY_TAG :: (count ++ members)
  | .strings values => do
    let count ← putCount "prepared string count" values.length
    let members ← putEach
      (fun value => putLengthDelimited "prepared member length" (utf8Bytes value)) values
    return STRING_ARRAY_TAG :: (count ++ members)

/-- The canonical bytes; the error is the message of the panic that the source
would raise instead. -/
def PreparedEqualityValue.encode (prepared : PreparedEqualityValue) : Except String Bytes := do
  let bytes ← prepared.kind.put
  if bytes.length ≠ prepared.encodedLen then
    throw "prepared equality length matches its encoding"
  return bytes

/-! ## §3. Validation. -/

namespace CanonicalDecoder

/-- The next `len` bytes. -/
def takeRaw (len : Nat) : Read Bytes := Reader.takeRaw .bufferTooShort len

/-- One byte. -/
def takeU8 : Read UInt8 := do
  let bytes ← takeRaw 1
  return bytes.headD 0

/-- A big-endian `u32`. -/
def takeU32 : Read Nat := do
  let bytes ← takeRaw 4
  return ofBe bytes

/-- Bytes behind their length. -/
def takeLengthDelimited : Read Bytes := do
  let len ← takeU32
  takeRaw len

/-- A finite number's exponent and significand. -/
def takeFinite : Read Unit := do
  let _exponent ← takeRaw 2
  let significand ← takeRaw 8
  Reader.rejectIf (ofBe significand = 0 ∨ ofBe significand % 2 = 0)
    (.invalidKey "canonical finite significand must be nonzero and odd")

/-- Reads over a number. -/
def takeNumber : Read Unit := do
  let tag ← takeU8
  if tag = NEGATIVE_INFINITY_TAG ∨ tag = ZERO_TAG ∨ tag = POSITIVE_INFINITY_TAG then
    return ()
  else if tag = NEGATIVE_FINITE_TAG ∨ tag = POSITIVE_FINITE_TAG then
    takeFinite
  else
    throw (.invalidKey s!"unknown canonical number tag {hexByte tag}")

/-- `std::str::from_utf8` of a length-delimited field. -/
def takeString : Read Unit := do
  let bytes ← takeLengthDelimited
  Reader.rejectIf (ofUtf8? bytes = none) .invalidUtf8

/-- What follows a tag. -/
def takeTagged (tag : UInt8) : Read Unit :=
  if tag = BOOL_TAG then do
    let value ← takeU8
    Reader.rejectIf (value ≠ 0x00 ∧ value ≠ 0x01)
      (.invalidKey s!"noncanonical equality boolean {hexByte value}")
  else if tag = NUMBER_TAG then takeNumber
  else if tag = DATETIME_TAG then do
    let _millis ← takeRaw 8
  else if tag = STRING_TAG then takeString
  else if tag = BYTES_TAG then do
    let _bytes ← takeLengthDelimited
  else if tag = I64_ARRAY_TAG then do
    let count ← takeU32
    Reader.rejectIf (count * 8 ≥ 2 ^ 64) (.invalidKey "equality i64 array length overflowed")
    let _members ← takeRaw (count * 8)
  else if tag = F64_ARRAY_TAG ∨ tag = F32_ARRAY_TAG then do
    let count ← takeU32
    Reader.times takeNumber count
  else if tag = STRING_ARRAY_TAG then do
    let count ← takeU32
    Reader.times takeString count
  else throw (.invalidKey s!"unknown canonical equality tag {hexByte tag}")

/-- Reads over a canonical value. -/
def takeCanonical : Read Unit := do
  let tag ← takeU8
  takeTagged tag

end CanonicalDecoder

/-- `validate_canonical`: within the limit and without trailing bytes. -/
def validateCanonical (canonical : Bytes) : Except EncodingError Unit :=
  if canonical.length > MAX_EQUALITY_CANONICAL_LEN then
    .error (.invalidKey s!"canonical equality value exceeds {MAX_EQUALITY_CANONICAL_LEN} bytes")
  else
    Reader.finish
      (fun n => .invalidKey s!"canonical equality value has {n} trailing bytes")
      CanonicalDecoder.takeCanonical canonical

/-! ## §4. Canonical contents.

A content is what the bytes stand for: a kind whose floats are replaced by
their canonical numbers. -/

/-- What canonical bytes stand for. -/
inductive Content where
  | bool (value : Bool)
  | number (value : CanonicalNumber)
  | dateTime (value : Int64)
  | string (value : String)
  | bytes (value : Bytes)
  | integers (values : List Int64)
  | doubles (values : List CanonicalNumber)
  | floats (values : List CanonicalNumber)
  | strings (values : List String)

/-- A length and the UTF-8 bytes of a text. -/
def putString (value : String) : Bytes :=
  beBytes COUNT_LEN (utf8Bytes value).length ++ utf8Bytes value

/-- A count and the members of an array. -/
def putArray {α : Type} (put : α → Bytes) (values : List α) : Bytes :=
  beBytes COUNT_LEN values.length ++ values.flatMap put

namespace Content

/-- The canonical bytes of a content. -/
def encoded : Content → Bytes
  | .bool value => [BOOL_TAG, if value then 1 else 0]
  | .number value => NUMBER_TAG :: putNumber value
  | .dateTime value => DATETIME_TAG :: putI64 value
  | .string value => STRING_TAG :: putString value
  | .bytes value => BYTES_TAG :: (beBytes COUNT_LEN value.length ++ value)
  | .integers values => I64_ARRAY_TAG :: putArray putI64 values
  | .doubles values => F64_ARRAY_TAG :: putArray putNumber values
  | .floats values => F32_ARRAY_TAG :: putArray putNumber values
  | .strings values => STRING_ARRAY_TAG :: putArray putString values

/-- Counts and lengths fit their `u32` fields. -/
def Fits : Content → Prop
  | .bool _ | .number _ | .dateTime _ => True
  | .string value => (utf8Bytes value).length < 2 ^ 32
  | .bytes value => value.length < 2 ^ 32
  | .integers values => values.length < 2 ^ 32
  | .doubles values | .floats values => values.length < 2 ^ 32
  | .strings values =>
    values.length < 2 ^ 32 ∧ ∀ value ∈ values, (utf8Bytes value).length < 2 ^ 32

end Content

/-- The content of a value that equality indexes. -/
inductive HasContent : PropertyValue → Content → Prop
  | bool (value : Bool) : HasContent (.bool value) (.bool value)
  | i64 (value : Int64) : HasContent (.i64 value) (.number (.fromI64 value))
  | f64 {bits : UInt64} {n : CanonicalNumber} (h : fromF64 bits = some n) :
      HasContent (.f64 bits) (.number n)
  | f32 {bits : UInt64} {n : CanonicalNumber} (h : fromF64 bits = some n) :
      HasContent (.f32 bits) (.number n)
  | dateTime (value : Int64) : HasContent (.dateTime value) (.dateTime value)
  | string (value : String) : HasContent (.string value) (.string value)
  | bytes (value : Bytes) : HasContent (.bytes value) (.bytes value)
  | i64Array (values : List Int64) : HasContent (.i64Array values) (.integers values)
  | f64Array {values : List UInt64} {ns : List CanonicalNumber}
      (h : List.Forall₂ (fun v n => fromF64 v = some n) values ns) :
      HasContent (.f64Array values) (.doubles ns)
  | f32Array {values : List UInt32} {ns : List CanonicalNumber}
      (h : List.Forall₂ (fun v n => fromF32 v = some n) values ns) :
      HasContent (.f32Array values) (.floats ns)
  | stringArray (values : List String) : HasContent (.stringArray values) (.strings values)

/-! ### Equal values have equal contents. -/

variable {length n : Nat} {α β : Type}

theorem numericSlicesEqual_iff {canonical : α → Option CanonicalNumber}
    {vs : List α} {ms : List CanonicalNumber}
    (hv : List.Forall₂ (fun v n => canonical v = some n) vs ms) :
    ∀ {ws : List α} {ns : List CanonicalNumber},
      List.Forall₂ (fun v n => canonical v = some n) ws ns →
        (numericSlicesEqual canonical vs ws = true ↔ ms = ns) := by
  induction hv with
  | nil =>
    intro ws ns hw
    cases hw <;> simp [numericSlicesEqual]
  | cons hv _ ih =>
    intro ws ns hw
    cases hw with
    | nil => simp [numericSlicesEqual]
    | cons hw htail =>
      have hrest := ih htail
      simp only [numericSlicesEqual] at hrest ⊢
      simp only [length_cons, zip_cons_cons, all_cons, hv, hw, sameNumber,
        Bool.and_eq_true, beq_iff_eq, List.cons.injEq, ← hrest, Nat.add_right_cancel_iff]
      exact and_left_comm

variable {c d : Content}

/-- **`eq_value` is equality of contents.** -/
theorem eqValue_iff {v w : PropertyValue} (hv : HasContent v c)
    (hw : HasContent w d) : v.eqValue w = true ↔ c = d := by
  cases hv with
  | f64Array hv =>
    cases hw with
    | f64Array hw =>
      rw [Content.doubles.injEq]
      exact numericSlicesEqual_iff hv hw
    | _ => simp [PropertyValue.eqValue, PropertyValue.isNumeric]
  | f32Array hv =>
    cases hw with
    | f32Array hw =>
      rw [Content.floats.injEq]
      exact numericSlicesEqual_iff hv hw
    | _ => simp [PropertyValue.eqValue, PropertyValue.isNumeric]
  | _ =>
    cases hw <;>
      simp_all [PropertyValue.eqValue, PropertyValue.isNumeric, sameNumber,
        fromProperty]

/-! ### Contents are determined by their bytes. -/

theorem selfDelimiting_putFinite : SelfDelimiting (fun _ : CanonicalFinite => True) putFinite := by
  intro f g _ _ s t heq
  have hf := f.exponent_ge
  have hf' := f.floorLog2_le
  have hf'' := f.floorLog2_eq
  have hg := g.exponent_ge
  have hg' := g.floorLog2_le
  have hg'' := g.floorLog2_eq
  obtain ⟨hexponent, hrest⟩ := selfDelimiting_beBytes 2 _ _ (by omega) (by omega) _ _ heq
  obtain ⟨hsignificand, hst⟩ := selfDelimiting_beBytes 8 _ _ f.lt g.lt _ _ hrest
  exact ⟨CanonicalFinite.ext_odd (by omega) hsignificand, hst⟩

theorem selfDelimiting_putNumber : SelfDelimiting (fun _ : CanonicalNumber => True) putNumber := by
  intro m n _ _ s t heq
  have hfinite : ∀ f g : CanonicalFinite, putFinite f ++ s = putFinite g ++ t → f = g ∧ s = t :=
    fun f g => selfDelimiting_putFinite f g trivial trivial s t
  cases m <;> cases n
  case negativeFinite.negativeFinite f g | positiveFinite.positiveFinite f g =>
    obtain ⟨rfl, hst⟩ := hfinite f g (cons.inj heq).2
    exact ⟨rfl, hst⟩
  case negativeInfinity.negativeInfinity | zero.zero | positiveInfinity.positiveInfinity =>
    exact ⟨rfl, (cons.inj heq).2⟩
  -- the tags tell the other classes apart
  all_goals exact absurd (cons.inj heq).1 (by decide)

theorem selfDelimiting_putI64 : SelfDelimiting (fun _ : Int64 => True) putI64 :=
  (selfDelimiting_beBytes 8).comap
    (fun m n _ _ h => by
      rw [← Int64.toInt_inj, toInt_eq_toNat, toInt_eq_toNat, h])
    (fun n _ => n.toUInt64.toNat_lt)

theorem selfDelimiting_putString :
    SelfDelimiting (fun value : String => (utf8Bytes value).length < 2 ^ 32) putString :=
  (selfDelimiting_lengthPrefixed COUNT_LEN).comap
    (fun _ _ _ _ h => utf8Bytes_injective h) (fun _ h => h)

/-- **Equal bytes are bytes of equal contents.** -/
theorem Content.encoded_inj (hc : c.Fits) (hd : d.Fits) :
    c.encoded = d.encoded ↔ c = d := by
  refine ⟨fun heq => ?_, fun h => congrArg Content.encoded h⟩
  cases c <;> cases d
  case bool.bool b b' => cases b <;> cases b' <;> simp_all [Content.encoded]
  case number.number m n =>
    have hput : putNumber m = putNumber n := (cons.inj heq).2
    rw [selfDelimiting_putNumber.inj trivial trivial hput]
  case dateTime.dateTime =>
    rw [selfDelimiting_putI64.inj trivial trivial (cons.inj heq).2]
  case string.string => rw [selfDelimiting_putString.inj hc hd (cons.inj heq).2]
  case bytes.bytes =>
    rw [(selfDelimiting_lengthPrefixed COUNT_LEN).inj hc hd (cons.inj heq).2]
  case integers.integers =>
    rw [(selfDelimiting_putI64.counted COUNT_LEN).inj ⟨hc, fun _ _ => trivial⟩
      ⟨hd, fun _ _ => trivial⟩ (cons.inj heq).2]
  case doubles.doubles | floats.floats =>
    rw [(selfDelimiting_putNumber.counted COUNT_LEN).inj ⟨hc, fun _ _ => trivial⟩
      ⟨hd, fun _ _ => trivial⟩ (cons.inj heq).2]
  case strings.strings =>
    rw [(selfDelimiting_putString.counted COUNT_LEN).inj hc hd (cons.inj heq).2]
  -- contents of two kinds differ in their tags
  all_goals exact absurd (cons.inj heq).1 (by decide)

/-! ## §5. Written bytes are accepted. -/

namespace CanonicalDecoder

theorem takeU8_bind_reads {k : UInt8 → Read β} {tag : UInt8} {bs : Bytes} {b : β}
    (hk : Reads (k tag) bs b 0) : Reads (takeU8 >>= k) (tag :: bs) b 0 := by
  show Reads (takeU8 >>= k) ([tag] ++ bs) b 0
  have hraw : Reads (takeRaw 1) [tag] [tag] 0 := Reads.takeRaw _ [tag]
  exact bind' (bind_nil hraw (Reads.pure tag) (le_refl 0)) hk

theorem takeU32_reads (h : n < 2 ^ 32) : Reads takeU32 (beBytes COUNT_LEN n) n 0 := by
  have hraw : Reads (takeRaw 4) (beBytes COUNT_LEN n) (beBytes COUNT_LEN n) 0 :=
    takeRaw_of_length _ (beBytes_length COUNT_LEN n)
  refine bind_nil hraw ?_ (le_refl 0)
  rw [ofBe_beBytes COUNT_LEN n h]
  exact Reads.pure n

theorem takeLengthDelimited_reads {bytes : Bytes} (h : bytes.length < 2 ^ 32) :
    Reads takeLengthDelimited (beBytes COUNT_LEN bytes.length ++ bytes) bytes 0 :=
  bind' (takeU32_reads h) (Reads.takeRaw _ bytes)

theorem takeFinite_reads (f : CanonicalFinite) : Reads takeFinite (putFinite f) () 0 := by
  have hexponent : Reads (takeRaw 2) (putI16 f.exponent) (putI16 f.exponent) 0 :=
    takeRaw_of_length _ (beBytes_length 2 _)
  have hsignificand : Reads (takeRaw 8) (beBytes 8 f.oddSignificand)
      (beBytes 8 f.oddSignificand) 0 :=
    takeRaw_of_length _ (beBytes_length 8 _)
  have hodd := f.odd
  refine bind' hexponent (bind_nil hsignificand (rejectIf ?_) (le_refl 0))
  rw [ofBe_beBytes 8 _ f.lt]
  omega

theorem takeNumber_reads (n : CanonicalNumber) : Reads takeNumber (putNumber n) () 0 := by
  cases n with
  | negativeInfinity | zero | positiveInfinity => exact takeU8_bind_reads (Reads.pure ())
  | negativeFinite f | positiveFinite f => exact takeU8_bind_reads (takeFinite_reads f)

theorem takeString_reads {value : String} (h : (utf8Bytes value).length < 2 ^ 32) :
    Reads takeString (putString value) () 0 :=
  bind_nil (takeLengthDelimited_reads h) (rejectIf (by simp)) (le_refl 0)

theorem length_flatMap_putI64 (values : List Int64) :
    (values.flatMap putI64).length = values.length * 8 := by
  simp [putI64]

/-- **What is written is read.** -/
theorem takeCanonical_reads (h : c.Fits) : Reads takeCanonical c.encoded () 0 := by
  cases c with
  | bool value =>
    refine takeU8_bind_reads (takeU8_bind_reads (rejectIf ?_))
    cases value <;> decide
  | number n => exact takeU8_bind_reads (takeNumber_reads n)
  | dateTime millis =>
    have hraw : Reads (takeRaw 8) (putI64 millis) (putI64 millis) 0 :=
      takeRaw_of_length _ (beBytes_length 8 _)
    exact takeU8_bind_reads (bind_nil hraw (Reads.pure ()) (le_refl 0))
  | string value => exact takeU8_bind_reads (takeString_reads h)
  | bytes value =>
    exact takeU8_bind_reads
      (bind_nil (takeLengthDelimited_reads h) (Reads.pure ()) (le_refl 0))
  | integers values =>
    have hcount : values.length < 2 ^ 32 := h
    have hraw : Reads (takeRaw (values.length * 8)) (values.flatMap putI64)
        (values.flatMap putI64) 0 :=
      takeRaw_of_length _ (length_flatMap_putI64 values)
    refine takeU8_bind_reads (bind' (takeU32_reads hcount) ?_)
    exact Reads.rejectIf_bind (by omega) (bind_nil hraw (Reads.pure ()) (le_refl 0))
  | doubles values | floats values =>
    exact takeU8_bind_reads (bind' (takeU32_reads h)
      (Reads.times values fun n _ => takeNumber_reads n))
  | strings values =>
    exact takeU8_bind_reads (bind' (takeU32_reads h.1)
      (Reads.times values fun value hmem => takeString_reads (h.2 value hmem)))

end CanonicalDecoder

/-! ## §6. Preparation. -/

theorem putNumber_length (n : CanonicalNumber) : (putNumber n).length = numberLen n := by
  cases n <;> simp [putNumber, putFinite, putI16, numberLen, TAG_LEN]

theorem tagged_putArray_length (tag : UInt8) (put : α → Bytes) (values : List α) :
    (tag :: putArray put values).length
      = TAG_LEN + COUNT_LEN + (values.map fun v => (put v).length).sum := by
  simp only [putArray, length_cons, length_append, beBytes_length, length_flatMap,
    TAG_LEN]
  omega

/-- Saturating twice is saturating once. -/
theorem min_saturatingAdd (a b c : Nat) :
    min (saturatingAdd a b + c) (U64_MAX) = min (a + b + c) (U64_MAX) := by
  unfold saturatingAdd
  omega

/-- The saturating length of a float array, from any start. -/
theorem foldlM_numberLen {canonical : α → Option CanonicalNumber} (values : List α) :
    ∀ {start length : Nat}, start ≤ U64_MAX →
      values.foldlM (fun length value => do
        let number ← canonical value
        return saturatingAdd length (numberLen number)) start = some length →
      ∃ ns, List.Forall₂ (fun v n => canonical v = some n) values ns ∧
        length = min (start + (ns.map fun n => (putNumber n).length).sum) (U64_MAX) := by
  induction values with
  | nil =>
    intro start length hstart h
    refine ⟨[], List.Forall₂.nil, ?_⟩
    have hlength : start = length := by simpa using h
    simp only [map_nil, sum_nil]
    omega
  | cons v values ih =>
    intro start length hstart h
    rw [foldlM_cons] at h
    cases hv : canonical v with
    | none =>
      simp [hv] at h
    | some n =>
      rw [hv] at h
      have hsat : saturatingAdd start (numberLen n) ≤ U64_MAX := min_le_right _ _
      obtain ⟨ns, hns, hlength⟩ := ih hsat h
      refine ⟨n :: ns, List.Forall₂.cons hv hns, ?_⟩
      rw [map_cons, sum_cons, hlength, putNumber_length, min_saturatingAdd,
        Nat.add_assoc]

/-- The saturating length of a string array, from any start. -/
theorem foldlM_stringLen (values : List String) :
    ∀ {start length : Nat}, start ≤ U64_MAX →
      values.foldlM (fun length value =>
        if (utf8Bytes value).length ≥ 2 ^ 32 then throw (utf8Bytes value).length
        else return saturatingAdd (saturatingAdd length COUNT_LEN) (utf8Bytes value).length)
        start = (.ok length : Except Nat Nat) →
      (∀ value ∈ values, (utf8Bytes value).length < 2 ^ 32) ∧
        length = min (start + (values.map fun v => (putString v).length).sum) (U64_MAX) := by
  induction values with
  | nil =>
    intro start length hstart h
    have hlength : start = length := Except.ok.inj h
    refine ⟨by simp, ?_⟩
    simp only [map_nil, sum_nil]
    omega
  | cons v values ih =>
    intro start length hstart h
    rw [foldlM_cons] at h
    split_ifs at h with hv
    · cases h
    · have hsat : saturatingAdd (saturatingAdd start COUNT_LEN) (utf8Bytes v).length
          ≤ U64_MAX := min_le_right _ _
      obtain ⟨hvalues, hlength⟩ := ih hsat h
      refine ⟨forall_mem_cons.mpr ⟨not_le.mp hv, hvalues⟩, ?_⟩
      have hput : (putString v).length = COUNT_LEN + (utf8Bytes v).length := by
        simp [putString]
      rw [map_cons, sum_cons, hlength, hput, min_saturatingAdd, Nat.add_assoc,
        min_saturatingAdd, Nat.add_assoc, Nat.add_assoc]

/-- Members that are all written. -/
theorem putEach_eq {put : α → Except String Bytes} {enc : β → Bytes}
    {values : List α} {xs : List β} (h : List.Forall₂ (fun v x => put v = .ok (enc x)) values xs) :
    putEach put values = .ok (xs.flatMap enc) := by
  have hmapM : values.mapM put = .ok (xs.map enc) := by
    induction h with
    | nil => rfl
    | cons hv _ ih =>
      rw [mapM_cons, hv, ih]
      rfl
  unfold putEach
  rw [hmapM]
  show Except.ok _ = _
  rw [flatMap_def]

theorem putCount_eq {message : String} {count : Nat} (h : count < 2 ^ 32) :
    putCount message count = .ok (beBytes COUNT_LEN count) := if_pos h

variable {p : PreparedEqualityValue}

/-- A guard that an indexed value passed. -/
theorem passed_of_indexed {bad : Prop} [Decidable bad]
    {rest : EqualityValueProjection PreparedEqualityValue}
    (h : (if bad then oversized length else rest) = .indexed p) : ¬ bad ∧ rest = .indexed p := by
  split_ifs at h with hbad
  · cases h
  · exact ⟨hbad, h⟩

theorem bounded_eq_indexed {kind : Kind}
    (h : bounded kind length = .indexed p) :
    p = ⟨kind, length⟩ ∧ length ≤ MAX_EQUALITY_CANONICAL_LEN := by
  obtain ⟨hlen, hindexed⟩ := passed_of_indexed h
  rw [EqualityValueProjection.indexed.injEq] at hindexed
  exact ⟨hindexed.symm, Nat.le_of_not_lt hlen⟩

/-- A prepared value writes the bytes of a content of the value, as many as
it announced. -/
structure Prepares (v : PropertyValue) (p : PreparedEqualityValue) (c : Content) : Prop where
  content : HasContent v c
  fits : c.Fits
  put : p.kind.put = .ok c.encoded
  length : c.encoded.length = p.encodedLen
  bound : p.encodedLen ≤ MAX_EQUALITY_CANONICAL_LEN

/-- A length that saturated is over the limit. -/
theorem eq_of_min_le (h : min n (U64_MAX) ≤ MAX_EQUALITY_CANONICAL_LEN) :
    min n (U64_MAX) = n := by
  have hmax : MAX_EQUALITY_CANONICAL_LEN < U64_MAX := by decide
  omega

/-- A float array, of doubles or of floats. -/
theorem putNumbers_eq {canonical : α → Option CanonicalNumber} {message : String}
    {values : List α} {ns : List CanonicalNumber}
    (h : List.Forall₂ (fun v n => canonical v = some n) values ns) :
    putEach (fun value => expectNumber message (canonical value)) values
      = .ok (ns.flatMap putNumber) := by
  apply putEach_eq
  refine h.imp ?_
  intro v n hv
  rw [hv]
  rfl

theorem prepares_i64Array {values : List Int64}
    (hcount : values.length < 2 ^ 32) (h : bounded (.integers values)
      (saturatingAdd (saturatingMul values.length 8) (TAG_LEN + COUNT_LEN)) = .indexed p) :
    Prepares (.i64Array values) p (.integers values) := by
  obtain ⟨rfl, hbound⟩ := bounded_eq_indexed h
  refine ⟨.i64Array values, hcount, ?_, ?_, hbound⟩
  · show (do let count ← putCount _ values.length; _) = _
    rw [putCount_eq hcount]
    rfl
  · have hmul : saturatingMul values.length 8 = values.length * 8 := by
      unfold saturatingMul U64_MAX
      omega
    have hadd : saturatingAdd (saturatingMul values.length 8) (TAG_LEN + COUNT_LEN)
        = saturatingMul values.length 8 + (TAG_LEN + COUNT_LEN) := eq_of_min_le hbound
    show (I64_ARRAY_TAG :: putArray putI64 values).length
      = saturatingAdd (saturatingMul values.length 8) (TAG_LEN + COUNT_LEN)
    rw [hadd, hmul, tagged_putArray_length]
    simp [putI64, Nat.add_comm]

theorem prepares_f64Array {values : List UInt64}
    (hcount : values.length < 2 ^ 32) (hlen : numbersLen fromF64 values = some length)
    (h : bounded (.doubles values) length = .indexed p) : ∃ c, Prepares (.f64Array values) p c := by
  obtain ⟨rfl, hbound⟩ := bounded_eq_indexed h
  obtain ⟨ns, hns, rfl⟩ := foldlM_numberLen values (by decide) hlen
  have hcount' : ns.length < 2 ^ 32 := hns.length_eq ▸ hcount
  refine ⟨.doubles ns, .f64Array hns, hcount', ?_,
    (tagged_putArray_length ..).trans (eq_of_min_le hbound).symm, hbound⟩
  show (do let count ← putCount _ values.length; _) = _
  rw [putCount_eq hcount, putNumbers_eq hns, hns.length_eq]
  rfl

theorem prepares_f32Array {values : List UInt32}
    (hcount : values.length < 2 ^ 32) (hlen : numbersLen fromF32 values = some length)
    (h : bounded (.floats values) length = .indexed p) : ∃ c, Prepares (.f32Array values) p c := by
  obtain ⟨rfl, hbound⟩ := bounded_eq_indexed h
  obtain ⟨ns, hns, rfl⟩ := foldlM_numberLen values (by decide) hlen
  have hcount' : ns.length < 2 ^ 32 := hns.length_eq ▸ hcount
  refine ⟨.floats ns, .f32Array hns, hcount', ?_,
    (tagged_putArray_length ..).trans (eq_of_min_le hbound).symm, hbound⟩
  show (do let count ← putCount _ values.length; _) = _
  rw [putCount_eq hcount, putNumbers_eq hns, hns.length_eq]
  rfl

theorem prepares_stringArray {values : List String}
    (hcount : values.length < 2 ^ 32) (hlen : stringsLen values = .ok length)
    (h : bounded (.strings values) length = .indexed p) :
    Prepares (.stringArray values) p (.strings values) := by
  obtain ⟨rfl, hbound⟩ := bounded_eq_indexed h
  obtain ⟨hvalues, rfl⟩ := foldlM_stringLen values (by decide) hlen
  refine ⟨.stringArray values, ⟨hcount, hvalues⟩, ?_, ?_, hbound⟩
  · have hmembers : putEach (fun value => putLengthDelimited "prepared member length"
        (utf8Bytes value)) values = .ok (values.flatMap putString) := by
      apply putEach_eq
      rw [forall₂_same]
      intro value hmem
      unfold putLengthDelimited
      rw [putCount_eq (hvalues value hmem)]
      rfl
    show (do let count ← putCount _ values.length; _) = _
    rw [putCount_eq hcount, hmembers]
    rfl
  · show (STRING_ARRAY_TAG :: putArray putString values).length = min _ _
    rw [eq_of_min_le hbound, tagged_putArray_length]

theorem prepares_number {v : PropertyValue} {n : CanonicalNumber}
    (hcontent : HasContent v (.number n))
    (h : bounded (.number n) (TAG_LEN + numberLen n) = .indexed p) : Prepares v p (.number n) := by
  obtain ⟨rfl, hbound⟩ := bounded_eq_indexed h
  refine ⟨hcontent, trivial, rfl, ?_, hbound⟩
  show (NUMBER_TAG :: putNumber n).length = TAG_LEN + numberLen n
  rw [length_cons, putNumber_length, TAG_LEN, Nat.add_comm]

/-- **Whatever is classified as indexed prepares some content.** -/
theorem exists_prepares {v : PropertyValue}
    (h : prepareEqualityValue v = .indexed p) : ∃ c, Prepares v p c := by
  cases v with
  | null => cases h
  | array values => cases h
  | object entries => cases h
  | bool value =>
    obtain ⟨rfl, hbound⟩ := bounded_eq_indexed h
    exact ⟨.bool value, .bool value, trivial, rfl, rfl, hbound⟩
  | i64 value => exact ⟨_, prepares_number (.i64 value) h⟩
  | f64 bits =>
    simp only [prepareEqualityValue] at h
    split at h
    case h_1 => cases h
    case h_2 n hn => exact ⟨_, prepares_number (.f64 hn) h⟩
  | f32 bits =>
    simp only [prepareEqualityValue] at h
    split at h
    case h_1 => cases h
    case h_2 n hn => exact ⟨_, prepares_number (.f32 hn) h⟩
  | dateTime value =>
    obtain ⟨rfl, hbound⟩ := bounded_eq_indexed h
    refine ⟨.dateTime value, .dateTime value, trivial, rfl, ?_, hbound⟩
    show (DATETIME_TAG :: putI64 value).length = TAG_LEN + 8
    simp [putI64, TAG_LEN]
  | string value =>
    obtain ⟨hlen, h⟩ := passed_of_indexed h
    obtain ⟨rfl, hbound⟩ := bounded_eq_indexed h
    refine ⟨.string value, .string value, not_le.mp hlen, ?_, ?_, hbound⟩
    · show (do let bytes ← putLengthDelimited _ (utf8Bytes value); _) = _
      rw [putLengthDelimited, putCount_eq (not_le.mp hlen)]
      rfl
    · show (STRING_TAG :: putString value).length = _
      simp [putString, TAG_LEN]
      omega
  | bytes value =>
    obtain ⟨hlen, h⟩ := passed_of_indexed h
    obtain ⟨rfl, hbound⟩ := bounded_eq_indexed h
    refine ⟨.bytes value, .bytes value, not_le.mp hlen, ?_, ?_, hbound⟩
    · show (do let bytes ← putLengthDelimited _ value; _) = _
      rw [putLengthDelimited, putCount_eq (not_le.mp hlen)]
      rfl
    · show (BYTES_TAG :: (beBytes COUNT_LEN value.length ++ value)).length = _
      simp [TAG_LEN]
      omega
  | i64Array values =>
    obtain ⟨hlen, h⟩ := passed_of_indexed h
    exact ⟨_, prepares_i64Array (not_le.mp hlen) h⟩
  | f64Array values =>
    obtain ⟨hlen, h⟩ := passed_of_indexed h
    split at h
    case h_1 => cases h
    case h_2 length hnumbers => exact prepares_f64Array (not_le.mp hlen) hnumbers h
  | f32Array values =>
    obtain ⟨hlen, h⟩ := passed_of_indexed h
    split at h
    case h_1 => cases h
    case h_2 length hnumbers => exact prepares_f32Array (not_le.mp hlen) hnumbers h
  | stringArray values =>
    obtain ⟨hlen, h⟩ := passed_of_indexed h
    split at h
    case h_1 => cases h
    case h_2 length hstrings => exact ⟨_, prepares_stringArray (not_le.mp hlen) hstrings h⟩

theorem Prepares.encode_eq {v : PropertyValue}
    (h : Prepares v p c) : p.encode = .ok c.encoded := by
  unfold PreparedEqualityValue.encode
  rw [h.put]
  show (if c.encoded.length ≠ p.encodedLen then _ else _) = _
  rw [if_neg (not_not.mpr h.length)]
  rfl

/-! ## §7. The characterization. -/

/-- **Canonical bytes stand for values up to `eq_value`.**  Two indexed values
are encoded without a panic, to equal bytes exactly when `eq_value` holds; the
number of bytes is the prepared length, and validation accepts them. -/
theorem canonical_equality_bytes_characterize (v w : PropertyValue)
    (p q : PreparedEqualityValue) (hv : prepareEqualityValue v = .indexed p)
    (hw : prepareEqualityValue w = .indexed q) :
    ∃ a b, p.encode = .ok a ∧ q.encode = .ok b ∧ (a = b ↔ v.eqValue w = true) ∧
      (a.length = p.encodedLen ∧ validateCanonical a = .ok ()) ∧
      (b.length = q.encodedLen ∧ validateCanonical b = .ok ()) := by
  have hvalid : ∀ {u r c}, Prepares u r c → validateCanonical c.encoded = .ok () := by
    intro u r c h
    unfold validateCanonical
    rw [if_neg (not_lt.mpr (h.length.trans_le h.bound))]
    exact Reads.finish_eq (CanonicalDecoder.takeCanonical_reads h.fits)
  obtain ⟨c, hc⟩ := exists_prepares hv
  obtain ⟨d, hd⟩ := exists_prepares hw
  refine ⟨c.encoded, d.encoded, hc.encode_eq, hd.encode_eq, ?_, ⟨hc.length, hvalid hc⟩,
    ⟨hd.length, hvalid hd⟩⟩
  rw [Content.encoded_inj hc.fits hd.fits, eqValue_iff hc.content hd.content]

/-- The integer 2 and the float 2.0 share their bytes. -/
theorem canonical_equality_bytes_of_two :
    ∃ p q, prepareEqualityValue (.i64 2) = .indexed p ∧
      prepareEqualityValue (.f64 0x4000000000000000) = .indexed q ∧
      ∃ a b, p.encode = .ok a ∧ q.encode = .ok b ∧
        (a = b ↔ (PropertyValue.i64 2).eqValue (.f64 0x4000000000000000) = true) ∧
        (a.length = p.encodedLen ∧ validateCanonical a = .ok ()) ∧
        (b.length = q.encodedLen ∧ validateCanonical b = .ok ()) := by
  have hv : prepareEqualityValue (.i64 2) = .indexed ⟨.number (.fromI64 2), 12⟩ := by
    decide +kernel
  have hw : prepareEqualityValue (.f64 0x4000000000000000)
      = .indexed ⟨.number (.fromI64 2), 12⟩ := by
    decide +kernel
  exact ⟨_, _, hv, hw, canonical_equality_bytes_characterize _ _ _ _ hv hw⟩

end HelixDb.Property
