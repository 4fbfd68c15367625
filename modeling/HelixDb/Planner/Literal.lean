/-
  HelixDb.Planner.Literal

  **LITERALS IN PLANNER PROOFS**: equality and ordering of query literals, the
  finite collections a membership test names, and their distinct values.

  The planner compares literals of its own value type; the runtime compares the
  values they become.

    • `propertyValuesEqual_eq` — planner equality is runtime `eq_value`,
    • `propertyValueOrdering_eq` — planner ordering is runtime `compare`,
    • `LiteralCollection.contains_eq_any` — membership is equality with an item.
-/
import HelixDb.Ast.PropertyValue
import HelixDb.Property.Compare

namespace HelixDb.Planner

open HelixDb.Lib HelixDb.Property.CanonicalNumber Option
open HelixDb.Ast (PropertyValue)
open HelixDb.Property (CanonicalNumber sameNumber numericSlicesEqual floatEq)

/-! ## §1. Equality and ordering. -/

/-- The integers and the floats. -/
def isNumeric : PropertyValue → Bool
  | .i64 _ | .f64 _ | .f32 _ => true
  | _ => false

/-- The number a value is. -/
def canonicalNumber : PropertyValue → Option CanonicalNumber
  | .i64 value => some (.fromI64 value)
  | .f64 value => CanonicalNumber.fromF64 value
  | .f32 value => CanonicalNumber.fromF32 value
  | _ => none

/-- Exact identity used by planner proofs. -/
def propertyValuesEqual (left right : PropertyValue) : Bool :=
  if isNumeric left && isNumeric right then
    sameNumber (canonicalNumber left) (canonicalNumber right)
  else
    match left, right with
    | .null, .null => true
    | .bool left, .bool right => left == right
    | .dateTime left, .dateTime right => left == right
    | .string left, .string right => left == right
    | .bytes left, .bytes right => left == right
    | .i64Array left, .i64Array right => left == right
    | .f64Array left, .f64Array right => numericSlicesEqual CanonicalNumber.fromF64 left right
    | .f32Array left, .f32Array right => numericSlicesEqual CanonicalNumber.fromF32 left right
    | .stringArray left, .stringArray right => left == right
    | .array left, .array right => PropertyValue.beqList left right
    | .object left, .object right => PropertyValue.beqEntries left right
    | _, _ => false

/-- `property_value_ordering`: numbers by value, the rest within one kind. -/
def propertyValueOrdering (left right : PropertyValue) : Option Ordering :=
  if isNumeric left && isNumeric right then
    match canonicalNumber left, canonicalNumber right with
    | some left, some right => some (compare left right)
    | _, _ => none
  else
    match left, right with
    | .dateTime left, .dateTime right => some (cmp left.toInt right.toInt)
    | .string left, .string right => some (cmp (utf8Bytes left) (utf8Bytes right))
    | _, _ => none

theorem isNumeric_astToDbValue (v : PropertyValue) : v.astToDbValue.isNumeric = isNumeric v := by
  cases v <;> rfl

theorem fromProperty_astToDbValue (v : PropertyValue) :
    fromProperty v.astToDbValue = canonicalNumber v := by
  cases v with
  | f32 bits => exact Ast.fromF64_f64FromF32 bits
  | null | bool | i64 | dateTime | f64 | string | bytes | i64Array | f64Array | f32Array
  | stringArray | array | object => rfl

/-- **Planner equality is runtime equality.** -/
theorem propertyValuesEqual_eq (a b : PropertyValue) :
    propertyValuesEqual a b = Property.PropertyValue.eqValue a.astToDbValue b.astToDbValue := by
  unfold propertyValuesEqual Property.PropertyValue.eqValue
  rw [isNumeric_astToDbValue, isNumeric_astToDbValue, fromProperty_astToDbValue,
    fromProperty_astToDbValue]
  by_cases hnum : (isNumeric a && isNumeric b) = true
  · rw [if_pos hnum, if_pos hnum]
  · cases a <;> cases b <;> first
      | rfl
      | exact (PropertyValue.beqList_astToDbValues _ _).symm
      | exact (PropertyValue.beqEntries_astToDbEntries _ _).symm

/-- **Planner ordering is runtime comparison.** -/
theorem propertyValueOrdering_eq (a b : PropertyValue) :
    propertyValueOrdering a b = a.astToDbValue.compare b.astToDbValue := by
  unfold propertyValueOrdering Property.PropertyValue.compare
  rw [isNumeric_astToDbValue, isNumeric_astToDbValue, fromProperty_astToDbValue,
    fromProperty_astToDbValue]
  by_cases hnum : (isNumeric a && isNumeric b) = true
  · cases canonicalNumber a <;> cases canonicalNumber b <;> simp only [if_pos hnum]
  · cases a <;> cases b <;> rfl

variable {v a b c : PropertyValue}

theorem propertyValuesEqual_of_numeric (ha : isNumeric a = true) (hb : isNumeric b = true) :
    propertyValuesEqual a b = sameNumber (canonicalNumber a) (canonicalNumber b) := by
  simp [propertyValuesEqual, ha, hb]

theorem propertyValuesEqual_symm (h : propertyValuesEqual a b = true) :
    propertyValuesEqual b a = true := by
  rw [propertyValuesEqual_eq] at h ⊢
  exact Property.PropertyValue.eqValue_symm h

theorem propertyValuesEqual_trans (hab : propertyValuesEqual a b = true)
    (hbc : propertyValuesEqual b c = true) : propertyValuesEqual a c = true := by
  rw [propertyValuesEqual_eq] at hab hbc ⊢
  exact Property.PropertyValue.eqValue_trans hab hbc

variable {x : Property.PropertyValue}

/-- Two literals equal to one stored value are equal. -/
theorem propertyValuesEqual_of_common
    (ha : x.eqValue a.astToDbValue = true) (hb : x.eqValue b.astToDbValue = true) :
    propertyValuesEqual a b = true := by
  rw [propertyValuesEqual_eq]
  exact Property.PropertyValue.eqValue_trans (Property.PropertyValue.eqValue_symm ha) hb

/-- Equal literals equal the same stored values. -/
theorem eqValue_of_propertyValuesEqual
    (hx : x.eqValue a.astToDbValue = true) (h : propertyValuesEqual a b = true) :
    x.eqValue b.astToDbValue = true := by
  rw [propertyValuesEqual_eq] at h
  exact Property.PropertyValue.eqValue_trans hx h

/-- Canonical forms agree exactly when the floats are equal. -/
theorem sameNumber_fromFloatBits (layout : FloatBits) (x y : Nat) :
    sameNumber (fromFloatBits layout x) (fromFloatBits layout y)
      = floatEq layout.toFloatLayout x y := by
  rw [Bool.eq_iff_iff, Property.sameNumber_iff, Property.floatEq_iff,
    ← map_value_fromFloatBits, ← map_value_fromFloatBits]
  constructor
  · rintro ⟨n, hx, hy⟩
    exact ⟨n.value, by rw [hx]; rfl, by rw [hy]; rfl⟩
  · rintro ⟨v, hx, hy⟩
    obtain ⟨m, hm, rfl⟩ := map_eq_some_iff.mp hx
    obtain ⟨n, hn, hmn⟩ := map_eq_some_iff.mp hy
    exact ⟨m, hm, value_injective hmn ▸ hn⟩

/-- Apart from numbers, planner equality is the derived one. -/
theorem propertyValuesEqual_eq_beq (h : isNumeric a = false) :
    propertyValuesEqual a b = PropertyValue.beq a b := by
  cases a <;> cases b <;> first
    | rfl
    | exact congrArg (fun f => _ && List.all _ f)
        (funext fun p : UInt64 × UInt64 => sameNumber_fromFloatBits _ p.1.toNat p.2.toNat)
    | exact congrArg (fun f => _ && List.all _ f)
        (funext fun p : UInt32 × UInt32 => sameNumber_fromFloatBits _ p.1.toNat p.2.toNat)
    | exact absurd h.symm Bool.false_ne_true

/-- **Literals equal by the derived equality are equal.** -/
theorem propertyValuesEqual_of_beq (h : PropertyValue.beq a b = true) :
    propertyValuesEqual a b = true := by
  cases hna : isNumeric a with
  | false => rw [propertyValuesEqual_eq_beq hna, h]
  | true =>
    cases PropertyValue.sameKind_of_beq h with
    | i64 =>
      rw [eq_of_beq h]
      exact (Property.sameNumber_iff _ _).mpr ⟨_, rfl, rfl⟩
    | f64 | f32 =>
      exact (sameNumber_fromFloatBits _ _ _).trans h
    | _ => cases hna

/-- Equal literals equal the same stored values. -/
theorem eqValue_eq_of_beq
    (h : PropertyValue.beq a b = true) : x.eqValue a.astToDbValue = x.eqValue b.astToDbValue := by
  have hequal := propertyValuesEqual_of_beq h
  rw [Bool.eq_iff_iff]
  exact ⟨fun hx => eqValue_of_propertyValuesEqual hx hequal,
    fun hx => eqValue_of_propertyValuesEqual hx (propertyValuesEqual_symm hequal)⟩

/-- Derived equality of literals is transitive, although no NaN equals itself. -/
theorem beq_trans (hab : PropertyValue.beq a b = true)
    (hbc : PropertyValue.beq b c = true) : PropertyValue.beq a c = true := by
  cases hna : isNumeric a with
  | false =>
    rw [← propertyValuesEqual_eq_beq hna]
    exact propertyValuesEqual_trans (propertyValuesEqual_of_beq hab)
      (propertyValuesEqual_of_beq hbc)
  | true =>
    cases PropertyValue.sameKind_of_beq hab with
    | i64 => rwa [eq_of_beq hab]
    | f64 | f32 =>
      cases PropertyValue.sameKind_of_beq hbc
      exact Property.floatEq_trans _ _ _ hab hbc
    | _ => cases hna

/-! ## §2. Finite collections. -/

/-- `is_nan`. -/
def isNan (layout : FloatLayout) (bits : Nat) : Bool :=
  decide (layout.Special bits) && decide (layout.fractionField bits ≠ 0)

/-- `f64::is_nan`. -/
def f64IsNan (bits : UInt64) : Bool := isNan CanonicalNumber.f64Bits.toFloatLayout bits.toNat

/-- `f32::is_nan`. -/
def f32IsNan (bits : UInt32) : Bool := isNan CanonicalNumber.f32Bits.toFloatLayout bits.toNat

mutual

/-- A value with no `NaN` in it. -/
def propertyValueHasReflexiveEquality : PropertyValue → Bool
  | .f64 value => !f64IsNan value
  | .f32 value => !f32IsNan value
  | .array values => allReflexive values
  | .object entries => allEntriesReflexive entries
  | .null | .bool _ | .i64 _ | .dateTime _ | .string _ | .bytes _ | .i64Array _ | .f64Array _
  | .f32Array _ | .stringArray _ => true

/-- No element has a `NaN` in it. -/
def allReflexive : List PropertyValue → Bool
  | [] => true
  | value :: values => propertyValueHasReflexiveEquality value && allReflexive values

/-- No entry has a `NaN` in it. -/
def allEntriesReflexive : List (String × PropertyValue) → Bool
  | [] => true
  | (_, value) :: entries => propertyValueHasReflexiveEquality value && allEntriesReflexive entries

end

/-- An array without elements. -/
def literalCollectionIsEmpty : PropertyValue → Bool
  | .i64Array values => values.isEmpty
  | .f64Array values => values.isEmpty
  | .f32Array values => values.isEmpty
  | .stringArray values => values.isEmpty
  | .array values => values.isEmpty
  | _ => false

/-- A validated finite collection: no item is a NaN. -/
inductive LiteralCollection where
  | i64 (values : List Int64)
  | f64 (values : List UInt64) (valid : values.all (fun value => !f64IsNan value) = true)
  | f32 (values : List UInt32) (valid : values.all (fun value => !f32IsNan value) = true)
  | strings (values : List String)
  | values (values : List PropertyValue) (valid : allReflexive values = true)

namespace LiteralCollection

/-- The arrays whose elements all equal themselves. -/
def new : PropertyValue → Option LiteralCollection
  | .i64Array xs => some (.i64 xs)
  | .f64Array xs =>
    if h : xs.all (fun value => !f64IsNan value) = true then some (.f64 xs h) else none
  | .f32Array xs =>
    if h : xs.all (fun value => !f32IsNan value) = true then some (.f32 xs h) else none
  | .stringArray xs => some (.strings xs)
  | .array items => if h : allReflexive items = true then some (.values items h) else none
  | _ => none

/-- Membership without materializing the domain; strings match strings only. -/
def contains (collection : LiteralCollection) (needle : PropertyValue) : Bool :=
  match collection with
  | .i64 xs => xs.any fun value => propertyValuesEqual (.i64 value) needle
  | .f64 xs _ => xs.any fun value => propertyValuesEqual (.f64 value) needle
  | .f32 xs _ => xs.any fun value => propertyValuesEqual (.f32 value) needle
  | .strings xs =>
    match needle with
    | .string needle => xs.any fun value => value == needle
    | _ => false
  | .values xs _ => xs.any fun value => propertyValuesEqual value needle

/-- The items, each as a value of its own. -/
def items : LiteralCollection → List PropertyValue
  | .i64 xs => xs.map .i64
  | .f64 xs _ => xs.map .f64
  | .f32 xs _ => xs.map .f32
  | .strings xs => xs.map .string
  | .values xs _ => xs

theorem contains_eq_any (collection : LiteralCollection) (needle : PropertyValue) :
    collection.contains needle
      = collection.items.any fun item => propertyValuesEqual item needle := by
  cases collection with
  | i64 xs | f64 xs _ | f32 xs _ => simp only [contains, items, List.any_map, Function.comp_def]
  | strings xs =>
    simp only [contains, items, List.any_map, Function.comp_def]
    cases needle <;> simp [propertyValuesEqual, isNumeric]
  | values xs _ => rfl

end LiteralCollection

/-! ## §3. Distinct values. -/

/-- Hashable identity of a property value. -/
inductive PropertyValueIdentity where
  | null
  | bool (value : Bool)
  | number (value : CanonicalNumber)
  | dateTime (value : Int64)
  | string (value : String)
  | bytes (value : Bytes)
  | i64Array (values : List Int64)
  | f64Array (values : List CanonicalNumber)
  | f32Array (values : List CanonicalNumber)
  | stringArray (values : List String)
deriving DecidableEq

/-- The identity of a value; none with a NaN, and none for nested values. -/
def propertyValueIdentity : PropertyValue → Option PropertyValueIdentity
  | .null => some .null
  | .bool value => some (.bool value)
  | .i64 value => (canonicalNumber (.i64 value)).map .number
  | .f64 value => (canonicalNumber (.f64 value)).map .number
  | .f32 value => (canonicalNumber (.f32 value)).map .number
  | .dateTime value => some (.dateTime value)
  | .string value => some (.string value)
  | .bytes value => some (.bytes value)
  | .i64Array values => some (.i64Array values)
  | .f64Array values => (values.mapM CanonicalNumber.fromF64).map .f64Array
  | .f32Array values => (values.mapM CanonicalNumber.fromF32).map .f32Array
  | .stringArray values => some (.stringArray values)
  | .array _ | .object _ => none

/-- `dedup_property_values`, with the identities seen so far. -/
def dedupPropertyValues (seen : List PropertyValueIdentity) : List PropertyValue → List PropertyValue
  | [] => []
  | value :: values =>
    match propertyValueIdentity value with
    | none => value :: dedupPropertyValues seen values
    | some identity =>
      if identity ∈ seen then dedupPropertyValues seen values
      else value :: dedupPropertyValues (identity :: seen) values

/-- `owned_values`. -/
def LiteralCollection.ownedValues (collection : LiteralCollection) : List PropertyValue :=
  dedupPropertyValues [] collection.items

/-- Slices with one list of canonical numbers agree. -/
theorem numericSlicesEqual_of_mapM {α : Type} {canonical : α → Option CanonicalNumber}
    {left right : List α} {numbers : List CanonicalNumber}
    (hleft : left.mapM canonical = some numbers) (hright : right.mapM canonical = some numbers) :
    numericSlicesEqual canonical left right = true := by
  refine (Property.slices_all_iff (fun x y => sameNumber (canonical x) (canonical y)) _ _).mpr ?_
  induction left generalizing right numbers with
  | nil =>
    cases hleft
    cases right with
    | nil => exact .nil
    | cons y ys => simp [bind_eq_some_iff] at hright
  | cons x xs ih =>
    simp only [List.mapM_cons, bind_eq_bind, bind_eq_some_iff, pure_def,
      Option.some.injEq] at hleft
    obtain ⟨n, hn, ns, hns, rfl⟩ := hleft
    cases right with
    | nil => simp at hright
    | cons y ys =>
      simp only [List.mapM_cons, bind_eq_bind, bind_eq_some_iff,
        pure_def, Option.some.injEq, List.cons.injEq] at hright
      obtain ⟨m, hm, ms, hms, rfl, rfl⟩ := hright
      exact .cons ((Property.sameNumber_iff _ _).mpr ⟨m, hn, hm⟩) (ih hns hms)

theorem propertyValueIdentity_of_isNumeric (h : isNumeric v = true) :
    propertyValueIdentity v = (canonicalNumber v).map .number := by
  cases v <;> first | rfl | exact absurd h Bool.false_ne_true

/-- **Values with one identity are equal.** -/
theorem propertyValuesEqual_of_identity {identity : PropertyValueIdentity}
    (ha : propertyValueIdentity a = some identity) (hb : propertyValueIdentity b = some identity) :
    propertyValuesEqual a b = true := by
  cases hna : isNumeric a with
  | true =>
    rw [propertyValueIdentity_of_isNumeric hna, map_eq_some_iff] at ha
    obtain ⟨n, hn, rfl⟩ := ha
    have hnb : isNumeric b = true := by
      cases b <;> simp_all [propertyValueIdentity, isNumeric]
    rw [propertyValueIdentity_of_isNumeric hnb, map_eq_some_iff] at hb
    obtain ⟨m, hm, hmn⟩ := hb
    cases hmn
    rw [propertyValuesEqual_of_numeric hna hnb]
    exact (Property.sameNumber_iff _ _).mpr ⟨n, hn, hm⟩
  | false =>
    unfold propertyValuesEqual
    cases a <;> simp only [propertyValueIdentity, Option.some.injEq, reduceCtorEq,
      map_eq_some_iff] at ha
    all_goals first
      | (subst ha; cases b <;> simp_all [propertyValueIdentity])
      | (obtain ⟨xs, hxs, rfl⟩ := ha
         cases b <;> simp only [propertyValueIdentity, Option.some.injEq, reduceCtorEq,
           map_eq_some_iff, PropertyValueIdentity.f64Array.injEq,
           PropertyValueIdentity.f32Array.injEq, and_false, exists_false, exists_eq_right] at hb
         exact numericSlicesEqual_of_mapM hxs hb)
      | exact absurd hna.symm Bool.false_ne_true

/-- Each value is kept, or an equal one is, unless its identity was seen before. -/
theorem exists_mem_dedupPropertyValues (seen : List PropertyValueIdentity)
    (values : List PropertyValue) (hv : v ∈ values) :
    (∃ w ∈ dedupPropertyValues seen values, w = v ∨ propertyValuesEqual v w = true) ∨
      ∃ identity ∈ seen, propertyValueIdentity v = some identity := by
  induction values generalizing seen with
  | nil => cases hv
  | cons value values ih =>
    cases hidentity : propertyValueIdentity value with
    | none =>
      simp only [dedupPropertyValues, hidentity]
      rcases List.mem_cons.mp hv with rfl | hv
      · exact .inl ⟨v, List.mem_cons_self, .inl rfl⟩
      · rcases ih seen hv with ⟨w, hw, heq⟩ | hseen
        · exact .inl ⟨w, List.mem_cons_of_mem _ hw, heq⟩
        · exact .inr hseen
    | some identity =>
      simp only [dedupPropertyValues, hidentity]
      split_ifs with hmem
      · rcases List.mem_cons.mp hv with rfl | hv
        · exact .inr ⟨identity, hmem, hidentity⟩
        · exact ih seen hv
      · rcases List.mem_cons.mp hv with rfl | hv
        · exact .inl ⟨v, List.mem_cons_self, .inl rfl⟩
        · rcases ih (identity :: seen) hv with ⟨w, hw, heq⟩ | ⟨other, hother, hv'⟩
          · exact .inl ⟨w, List.mem_cons_of_mem _ hw, heq⟩
          · -- A repeat of the head: the head stands for it.
            rcases List.mem_cons.mp hother with rfl | hother
            · exact .inl ⟨value, List.mem_cons_self,
                .inr (propertyValuesEqual_of_identity hv' hidentity)⟩
            · exact .inr ⟨other, hother, hv'⟩

end HelixDb.Planner
