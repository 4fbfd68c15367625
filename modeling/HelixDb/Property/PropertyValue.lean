/-
  HelixDb.Property.PropertyValue

  **PROPERTY VALUES** and their query equality, `eq_value`.

  Floats are their bit patterns; `f32` holds an `f64`, as in the source.  An
  object is the sequence of its entries in key order.

  `eq_value` compares numbers of any numeric variant by their canonical form.
  Inside heterogeneous arrays and objects it is the derived equality instead:
  there an integer never equals a float, and floats compare as floats do.
-/
import HelixDb.Property.CanonicalNumber
import HelixDb.Lib.Bytes

namespace HelixDb.Property

open HelixDb.Lib
open CanonicalNumber (f64Bits f32Bits fromF64 fromF32)

/-- A typed graph property. -/
inductive PropertyValue where
  | null
  | bool (value : Bool)
  | i64 (value : Int64)
  | dateTime (millis : Int64)
  | f64 (bits : UInt64)
  | f32 (bits : UInt64)
  | string (value : String)
  | bytes (value : Bytes)
  | i64Array (values : List Int64)
  | f64Array (values : List UInt64)
  | f32Array (values : List UInt32)
  | stringArray (values : List String)
  | array (values : List PropertyValue)
  | object (entries : List (String × PropertyValue))

/-! ## §1. Derived equality. -/

/-- `==` of floats: what is not a number equals nothing, and the zeros are
equal. -/
def floatEq (layout : FloatLayout) (left right : Nat) : Bool :=
  match layout.value left, layout.value right with
  | some x, some y => decide (x = y)
  | _, _ => false

namespace PropertyValue

mutual

/-- The derived `PartialEq`. -/
def beq : PropertyValue → PropertyValue → Bool
  | .null, .null => true
  | .bool a, .bool b => a == b
  | .i64 a, .i64 b => a == b
  | .dateTime a, .dateTime b => a == b
  | .f64 a, .f64 b => floatEq f64Bits.toFloatLayout a.toNat b.toNat
  | .f32 a, .f32 b => floatEq f64Bits.toFloatLayout a.toNat b.toNat
  | .string a, .string b => a == b
  | .bytes a, .bytes b => a == b
  | .i64Array a, .i64Array b => a == b
  | .f64Array a, .f64Array b =>
    a.length == b.length && (a.zip b).all fun (x, y) =>
      floatEq f64Bits.toFloatLayout x.toNat y.toNat
  | .f32Array a, .f32Array b =>
    a.length == b.length && (a.zip b).all fun (x, y) =>
      floatEq f32Bits.toFloatLayout x.toNat y.toNat
  | .stringArray a, .stringArray b => a == b
  | .array a, .array b => beqList a b
  | .object a, .object b => beqEntries a b
  | _, _ => false

/-- Arrays, element by element. -/
def beqList : List PropertyValue → List PropertyValue → Bool
  | [], [] => true
  | a :: as, b :: bs => beq a b && beqList as bs
  | _, _ => false

/-- Objects, entry by entry in their order. -/
def beqEntries : List (String × PropertyValue) → List (String × PropertyValue) → Bool
  | [], [] => true
  | (k, a) :: as, (l, b) :: bs => k == l && beq a b && beqEntries as bs
  | _, _ => false

end

/-- Two values of one variant. -/
inductive SameKind : PropertyValue → PropertyValue → Prop
  | null : SameKind .null .null
  | bool (a b) : SameKind (.bool a) (.bool b)
  | i64 (a b) : SameKind (.i64 a) (.i64 b)
  | dateTime (a b) : SameKind (.dateTime a) (.dateTime b)
  | f64 (a b) : SameKind (.f64 a) (.f64 b)
  | f32 (a b) : SameKind (.f32 a) (.f32 b)
  | string (a b) : SameKind (.string a) (.string b)
  | bytes (a b) : SameKind (.bytes a) (.bytes b)
  | i64Array (a b) : SameKind (.i64Array a) (.i64Array b)
  | f64Array (a b) : SameKind (.f64Array a) (.f64Array b)
  | f32Array (a b) : SameKind (.f32Array a) (.f32Array b)
  | stringArray (a b) : SameKind (.stringArray a) (.stringArray b)
  | array (a b) : SameKind (.array a) (.array b)
  | object (a b) : SameKind (.object a) (.object b)

theorem sameKind_of_beq {a b : PropertyValue} (h : beq a b = true) : SameKind a b := by
  cases a <;> cases b <;> first | constructor | cases h

end PropertyValue

/-! ## §2. Canonical numbers and query equality. -/

/-- `canonical_number::from_property`: `none` for other values and for NaN. -/
def CanonicalNumber.fromProperty : PropertyValue → Option CanonicalNumber
  | .i64 value => some (.fromI64 value)
  | .f64 bits => fromF64 bits
  | .f32 bits => fromF64 bits
  | _ => none

/-- `left.zip(right).is_some_and(|(left, right)| left == right)`. -/
def sameNumber (left right : Option CanonicalNumber) : Bool :=
  match left, right with
  | some left, some right => left == right
  | _, _ => false

/-- `numeric_f64_slices_equal` and `numeric_f32_slices_equal`. -/
def numericSlicesEqual {α : Type} (canonical : α → Option CanonicalNumber)
    (left right : List α) : Bool :=
  left.length == right.length &&
    (left.zip right).all fun (left, right) => sameNumber (canonical left) (canonical right)

namespace PropertyValue

/-- The integers and the floats. -/
def isNumeric : PropertyValue → Bool
  | .i64 _ | .f64 _ | .f32 _ => true
  | _ => false

/-- Check equality with another value (type-aware). -/
def eqValue (self other : PropertyValue) : Bool :=
  if self.isNumeric && other.isNumeric then
    sameNumber (CanonicalNumber.fromProperty self) (CanonicalNumber.fromProperty other)
  else
    match self, other with
    | .null, .null => true
    | .bool a, .bool b => a == b
    | .dateTime a, .dateTime b => a == b
    | .string a, .string b => a == b
    | .bytes a, .bytes b => a == b
    | .i64Array a, .i64Array b => a == b
    | .f64Array a, .f64Array b => numericSlicesEqual fromF64 a b
    | .f32Array a, .f32Array b => numericSlicesEqual fromF32 a b
    | .stringArray a, .stringArray b => a == b
    | .array a, .array b => beqList a b
    | .object a, .object b => beqEntries a b
    | _, _ => false

end PropertyValue

end HelixDb.Property
