/-
  HelixDb.Ast.PropertyValue

  **QUERY LITERALS** and how the runtime reads them.

  The query language has the property values of the store, except that a single
  float is an `f32` there and an `f64` here.  `ast_to_db_value` widens it, at
  the top and inside arrays and objects.

    • `value_f64FromF32` — a single float widens to the same number,
    • `beq_astToDbValue` — the derived equality of literals is that of the values
      they become.
-/
import HelixDb.Lib.FloatFormat
import HelixDb.Property.PropertyValue

namespace HelixDb.Ast

open HelixDb.Lib HelixDb.Property CanonicalNumber

/-- A property value of the query language. -/
inductive PropertyValue where
  | null
  | bool (value : Bool)
  | i64 (value : Int64)
  | dateTime (millis : Int64)
  | f64 (bits : UInt64)
  | f32 (bits : UInt32)
  | string (value : String)
  | bytes (value : Bytes)
  | i64Array (values : List Int64)
  | f64Array (values : List UInt64)
  | f32Array (values : List UInt32)
  | stringArray (values : List String)
  | array (values : List PropertyValue)
  | object (entries : List (String × PropertyValue))

/-! ## §1. Widening a single float. -/

theorem f32_widens : FloatLayout.Widens f32Bits.toFloatLayout
    f64Bits.toFloatLayout where
  fraction_le := by decide
  subnormal_normal := by decide
  exponent_lt := by decide

/-- `f64::from(f32)`. -/
def f64FromF32 (bits : UInt32) : UInt64 :=
  .ofNat (f32Bits.widen f64Bits.toFloatLayout bits.toNat)

theorem toNat_f64FromF32 (bits : UInt32) : (f64FromF32 bits).toNat
    = f32Bits.widen f64Bits.toFloatLayout bits.toNat :=
  UInt64.toNat_ofNat_of_lt (FloatLayout.widen_lt _ f32_widens)

/-- **A single float widens to the same number.** -/
theorem value_f64FromF32 (bits : UInt32) :
    f64Bits.value (f64FromF32 bits).toNat
      = f32Bits.value bits.toNat := by
  rw [toNat_f64FromF32]
  exact FloatLayout.value_widen _ f32_widens

theorem fromF64_f64FromF32 (bits : UInt32) : fromF64 (f64FromF32 bits) = fromF32 bits := by
  apply Option.map_injective value_injective
  rw [map_value_fromF64, map_value_fromF32, value_f64FromF32]

theorem floatEq_f64FromF32 (a b : UInt32) :
    floatEq f64Bits.toFloatLayout (f64FromF32 a).toNat (f64FromF32 b).toNat
      = floatEq f32Bits.toFloatLayout a.toNat b.toNat := by
  unfold floatEq
  rw [value_f64FromF32, value_f64FromF32]

/-! ## §2. Literals at run time. -/

namespace PropertyValue

mutual

/-- `ast_to_db_value`. -/
def astToDbValue : PropertyValue → Property.PropertyValue
  | .null => .null
  | .bool value => .bool value
  | .i64 value => .i64 value
  | .dateTime value => .dateTime value
  | .f64 value => .f64 value
  | .f32 value => .f32 (f64FromF32 value)
  | .string value => .string value
  | .bytes value => .bytes value
  | .i64Array value => .i64Array value
  | .f64Array value => .f64Array value
  | .f32Array value => .f32Array value
  | .stringArray value => .stringArray value
  | .array values => .array (astToDbValues values)
  | .object entries => .object (astToDbEntries entries)

/-- The values of an array. -/
def astToDbValues : List PropertyValue → List Property.PropertyValue
  | [] => []
  | value :: values => astToDbValue value :: astToDbValues values

/-- The entries of an object. -/
def astToDbEntries : List (String × PropertyValue) → List (String × Property.PropertyValue)
  | [] => []
  | (name, value) :: entries => (name, astToDbValue value) :: astToDbEntries entries

end

theorem astToDbValues_eq_map (values : List PropertyValue) :
    astToDbValues values = values.map astToDbValue := by
  induction values with
  | nil => rfl
  | cons value values ih => rw [astToDbValues, ih, List.map_cons]

mutual

/-- The derived `PartialEq`. -/
def beq : PropertyValue → PropertyValue → Bool
  | .null, .null => true
  | .bool a, .bool b => a == b
  | .i64 a, .i64 b => a == b
  | .dateTime a, .dateTime b => a == b
  | .f64 a, .f64 b => floatEq f64Bits.toFloatLayout a.toNat b.toNat
  | .f32 a, .f32 b => floatEq f32Bits.toFloatLayout a.toNat b.toNat
  | .string a, .string b => a == b
  | .bytes a, .bytes b => a == b
  | .i64Array a, .i64Array b => a == b
  | .f64Array a, .f64Array b =>
    a.length == b.length && (a.zip b).all fun (x, y) =>
      floatEq f64Bits.toFloatLayout x.toNat y.toNat
  | .f32Array a, .f32Array b =>
    a.length == b.length && (a.zip b).all fun (x, y) =>
      floatEq f32Bits.toFloatLayout x.toNat y.toNat
  | .stringArray a, .stringArray b => a == b
  | .array a, .array b => beqList a b
  | .object a, .object b => beqEntries a b
  | _, _ => false

/-- Arrays, element by element. -/
def beqList : List PropertyValue → List PropertyValue → Bool
  | [], [] => true
  | a :: as, b :: bs => beq a b && beqList as bs
  | _, _ => false

/-- Objects, entry by entry in their order. -/
def beqEntries : List (String × PropertyValue) → List (String × PropertyValue) → Bool
  | [], [] => true
  | (k, a) :: as, (l, b) :: bs => k == l && beq a b && beqEntries as bs
  | _, _ => false

end

/-- Two values of one variant. -/
inductive SameKind : PropertyValue → PropertyValue → Prop
  | null : SameKind .null .null
  | bool (a b) : SameKind (.bool a) (.bool b)
  | i64 (a b) : SameKind (.i64 a) (.i64 b)
  | dateTime (a b) : SameKind (.dateTime a) (.dateTime b)
  | f64 (a b) : SameKind (.f64 a) (.f64 b)
  | f32 (a b) : SameKind (.f32 a) (.f32 b)
  | string (a b) : SameKind (.string a) (.string b)
  | bytes (a b) : SameKind (.bytes a) (.bytes b)
  | i64Array (a b) : SameKind (.i64Array a) (.i64Array b)
  | f64Array (a b) : SameKind (.f64Array a) (.f64Array b)
  | f32Array (a b) : SameKind (.f32Array a) (.f32Array b)
  | stringArray (a b) : SameKind (.stringArray a) (.stringArray b)
  | array (a b) : SameKind (.array a) (.array b)
  | object (a b) : SameKind (.object a) (.object b)

theorem sameKind_of_beq {a b : PropertyValue} (h : beq a b = true) : SameKind a b := by
  cases a <;> cases b <;> first | constructor | cases h

mutual

/-- **The derived equality of literals is that of the values they become.** -/
theorem beq_astToDbValue : ∀ a b : PropertyValue,
    Property.PropertyValue.beq a.astToDbValue b.astToDbValue = beq a b
  | .f32 a, b => by
    cases b <;> simp only [astToDbValue, beq, Property.PropertyValue.beq]
    exact floatEq_f64FromF32 _ _
  | .array a, b => by
    cases b <;> simp only [astToDbValue, beq, Property.PropertyValue.beq]
    exact beqList_astToDbValues a _
  | .object a, b => by
    cases b <;> simp only [astToDbValue, beq, Property.PropertyValue.beq]
    exact beqEntries_astToDbEntries a _
  | .null, b | .bool _, b | .i64 _, b | .dateTime _, b | .f64 _, b | .string _, b | .bytes _, b
  | .i64Array _, b | .f64Array _, b | .f32Array _, b | .stringArray _, b => by
    cases b <;> simp only [astToDbValue, beq, Property.PropertyValue.beq]

theorem beqList_astToDbValues : ∀ a b : List PropertyValue,
    Property.PropertyValue.beqList (astToDbValues a) (astToDbValues b) = beqList a b
  | [], b => by cases b <;> rfl
  | a :: as, [] => rfl
  | a :: as, b :: bs => by
    simp only [astToDbValues, Property.PropertyValue.beqList, beqList]
    rw [beq_astToDbValue a b, beqList_astToDbValues as bs]

theorem beqEntries_astToDbEntries : ∀ a b : List (String × PropertyValue),
    Property.PropertyValue.beqEntries (astToDbEntries a) (astToDbEntries b) = beqEntries a b
  | [], b => by cases b <;> rfl
  | a :: as, [] => rfl
  | (k, a) :: as, (l, b) :: bs => by
    simp only [astToDbEntries, Property.PropertyValue.beqEntries, beqEntries]
    rw [beq_astToDbValue a b, beqEntries_astToDbEntries as bs]

end

end PropertyValue

end HelixDb.Ast
