/-
  HelixDb.Planner.LiteralSet

  **MEMBERSHIP IN A FINITE LITERAL DOMAIN.**

  Small domains are searched linearly.  A wide domain probed often is sorted by
  an internal order of literals and searched by halving; the equality of the
  caller then decides about the place found.  The order groups equal literals:
  numbers of every width together at the top, typed values inside arrays and
  objects, the two zeros as one, and NaNs somewhere.

    • `LiteralOrder.compare_eq_orderCmp` — the order is that of a key,
    • `compare_eq_of_equal`, `equal_of_compare_eq` — order and equality agree,
    • `membershipBy_eq_any` — **both strategies are membership by equality**.
-/
import HelixDb.Lib.SortedSearch
import HelixDb.Planner.Literal

namespace HelixDb.Planner

open HelixDb.Lib HelixDb.Property.CanonicalNumber HelixDb.Ast.PropertyValue
open HelixDb.Ast (PropertyValue)
open HelixDb.Property (CanonicalNumber sameNumber numericSlicesEqual floatEq)

/-! ## §1. The order of literals. -/

/-- `f64::total_cmp` compares these integers. -/
def totalKey (bits : UInt64) : ℤ :=
  if bits.toNat < 2 ^ 63 then bits.toNat else -(bits.toNat - 2 ^ 63 : ℤ) - 1

/-- `if value == 0.0 { 0.0 } else { value }`. -/
def unsignedZero (bits : UInt64) : UInt64 := if bits.toNat % 2 ^ 63 = 0 then 0 else bits

/-- Floats by their total order, with one zero. -/
def compareF64 (left right : UInt64) : Ordering :=
  orderCmp (totalKey (unsignedZero left)) (totalKey (unsignedZero right))

/-- Whether numbers of different types are one kind. -/
inductive LiteralOrder where
  | typed
  | scalarNumeric
deriving DecidableEq

/-- The place of a value's kind. -/
def LiteralOrder.kind (order : LiteralOrder) : PropertyValue → ℤ
  | .null => 0
  | .bool _ => 1
  | .i64 _ => 2
  | .dateTime _ => 3
  | .f64 _ => if order = .scalarNumeric then 2 else 4
  | .f32 _ => if order = .scalarNumeric then 2 else 5
  | .string _ => 6
  | .bytes _ => 7
  | .i64Array _ => 8
  | .f64Array _ => 9
  | .f32Array _ => 10
  | .stringArray _ => 11
  | .array _ => 12
  | .object _ => 13

/-- Bytes, lexicographically. -/
def compareBytes : Bytes → Bytes → Ordering := lexCompare fun a b => orderCmp (a.toNat : ℤ) b.toNat

/-- Strings by their bytes. -/
def compareStrings (left right : String) : Ordering := compareBytes (utf8Bytes left) (utf8Bytes right)

mutual

/-- The comparison of two values of one kind; nested values are typed. -/
def comparePayload : PropertyValue → PropertyValue → Ordering
  | .bool left, .bool right => orderCmp (left.toNat : ℤ) right.toNat
  | .i64 left, .i64 right => orderCmp left.toInt right.toInt
  | .dateTime left, .dateTime right => orderCmp left.toInt right.toInt
  | .f64 left, .f64 right => compareF64 left right
  | .f32 left, .f32 right => compareF64 (Ast.f64FromF32 left) (Ast.f64FromF32 right)
  | .string left, .string right => compareStrings left right
  | .bytes left, .bytes right => compareBytes left right
  | .i64Array left, .i64Array right => lexCompare (fun a b => orderCmp a.toInt b.toInt) left right
  | .f64Array left, .f64Array right => lexCompare compareF64 left right
  | .f32Array left, .f32Array right =>
    lexCompare (fun a b => compareF64 (Ast.f64FromF32 a) (Ast.f64FromF32 b)) left right
  | .stringArray left, .stringArray right => lexCompare compareStrings left right
  | .array left, .array right => compareValues left right
  | .object left, .object right => compareEntries left right
  | _, _ => .eq

/-- Arrays: the first differing item, then the length. -/
def compareValues : List PropertyValue → List PropertyValue → Ordering
  | [], [] => .eq
  | [], _ :: _ => .lt
  | _ :: _, [] => .gt
  | a :: as, b :: bs =>
    ((orderCmp (LiteralOrder.typed.kind a) (LiteralOrder.typed.kind b)).then
      (comparePayload a b)).then (compareValues as bs)

/-- Objects: the first entry that differs in key or value, then the length. -/
def compareEntries :
    List (String × PropertyValue) → List (String × PropertyValue) → Ordering
  | [], [] => .eq
  | [], _ :: _ => .lt
  | _ :: _, [] => .gt
  | (k, a) :: as, (l, b) :: bs =>
    ((compareStrings k l).then
      ((orderCmp (LiteralOrder.typed.kind a) (LiteralOrder.typed.kind b)).then
        (comparePayload a b))).then (compareEntries as bs)

end

/-- `Option<CanonicalNumber>::cmp`: what is not a number comes first. -/
def compareNumbers : Option CanonicalNumber → Option CanonicalNumber → Ordering
  | none, none => .eq
  | none, some _ => .lt
  | some _, none => .gt
  | some left, some right => compare left right

/-- By kind, then within it. -/
def LiteralOrder.compare (order : LiteralOrder) (left right : PropertyValue) : Ordering :=
  (orderCmp (order.kind left) (order.kind right)).then
    (if order = .scalarNumeric ∧ isNumeric left = true then
      compareNumbers (canonicalNumber left) (canonicalNumber right)
    else comparePayload left right)

/-! ## §2. The order is that of a key. -/

/-- The key of bytes. -/
def bytesKey : Bytes → List ℤ := listKey fun byte => [(byte.toNat : ℤ)]

/-- The key of a string. -/
def stringKey (value : String) : List ℤ := bytesKey (utf8Bytes value)

/-- The key of a float. -/
def f64Key (bits : UInt64) : List ℤ := [totalKey (unsignedZero bits)]

theorem presents_bytes : Presents compareBytes bytesKey :=
  (presents_single fun byte : UInt8 => (byte.toNat : ℤ)).list

theorem presents_string : Presents compareStrings stringKey :=
  fun a b => presents_bytes (utf8Bytes a) (utf8Bytes b)

theorem presents_f64 : Presents compareF64 f64Key :=
  presents_single fun bits => totalKey (unsignedZero bits)

variable {a b v : PropertyValue}

theorem presents_f32 : Presents
    (fun a b => compareF64 (Ast.f64FromF32 a) (Ast.f64FromF32 b))
    (fun bits => f64Key (Ast.f64FromF32 bits)) :=
  fun a b => presents_f64 (Ast.f64FromF32 a) (Ast.f64FromF32 b)

mutual

/-- The key of a value within its kind. -/
def payloadKey : PropertyValue → List ℤ
  | .null => []
  | .bool value => [(value.toNat : ℤ)]
  | .i64 value => [value.toInt]
  | .dateTime value => [value.toInt]
  | .f64 bits => f64Key bits
  | .f32 bits => f64Key (Ast.f64FromF32 bits)
  | .string value => stringKey value
  | .bytes value => bytesKey value
  | .i64Array values => listKey (fun value => [value.toInt]) values
  | .f64Array values => listKey f64Key values
  | .f32Array values => listKey (fun bits => f64Key (Ast.f64FromF32 bits)) values
  | .stringArray values => listKey stringKey values
  | .array values => valuesKey values
  | .object entries => entriesKey entries

/-- The key of an array. -/
def valuesKey : List PropertyValue → List ℤ
  | [] => [0]
  | a :: as => 1 :: LiteralOrder.typed.kind a :: (payloadKey a ++ valuesKey as)

/-- The key of an object. -/
def entriesKey : List (String × PropertyValue) → List ℤ
  | [] => [0]
  | (k, a) :: as =>
    1 :: (stringKey k ++ LiteralOrder.typed.kind a :: (payloadKey a ++ entriesKey as))

end

theorem sameKind_of_kind
    (h : LiteralOrder.typed.kind a = LiteralOrder.typed.kind b) : SameKind a b := by
  cases a <;> cases b <;> first | constructor | cases h

/-- A comparison that the kinds decide need not look at the payloads. -/
theorem then_congr_of_eq {κ : Type} [LinearOrder κ] {a b : κ} {o p : Ordering}
    (h : a = b → o = p) : (orderCmp a b).then o = (orderCmp a b).then p := by
  by_cases hab : a = b
  · rw [h hab]
  · cases hcmp : orderCmp a b with
    | lt => rfl
    | gt => rfl
    | eq => exact absurd (orderCmp_eq_iff.mp hcmp) hab

mutual

theorem orderCmp_payloadKey (a b : PropertyValue) (r s : List ℤ)
    (h : LiteralOrder.typed.kind a = LiteralOrder.typed.kind b) :
    orderCmp (payloadKey a ++ r) (payloadKey b ++ s) =
      (comparePayload a b).then (orderCmp r s) := by
  cases sameKind_of_kind h with
  | null => rfl
  | bool | i64 | dateTime => exact orderCmp_cons _ _ r s
  | f64 => exact presents_f64 _ _ r s
  | f32 => exact presents_f32 _ _ r s
  | string => exact presents_string _ _ r s
  | bytes => exact presents_bytes _ _ r s
  | i64Array => exact (presents_single fun value : Int64 => value.toInt).list _ _ r s
  | f64Array => exact presents_f64.list _ _ r s
  | f32Array => exact presents_f32.list _ _ r s
  | stringArray => exact presents_string.list _ _ r s
  | array a b => exact orderCmp_valuesKey a b r s
  | object a b => exact orderCmp_entriesKey a b r s

theorem orderCmp_valuesKey : ∀ (as bs : List PropertyValue) (r s : List ℤ),
    orderCmp (valuesKey as ++ r) (valuesKey bs ++ s) = (compareValues as bs).then (orderCmp r s)
  | [], [], r, s => orderCmp_cons 0 0 r s
  | [], _ :: _, _, _ => orderCmp_cons 0 1 _ _
  | _ :: _, [], _, _ => orderCmp_cons 1 0 _ _
  | a :: as, b :: bs, r, s => by
    simp only [valuesKey, compareValues, List.cons_append, List.append_assoc, orderCmp_cons,
      Ordering.then_assoc]
    rw [orderCmp_self]
    refine then_congr_of_eq fun hkind => ?_
    rw [orderCmp_payloadKey a b _ _ hkind, orderCmp_valuesKey as bs r s]

theorem orderCmp_entriesKey : ∀ (as bs : List (String × PropertyValue)) (r s : List ℤ),
    orderCmp (entriesKey as ++ r) (entriesKey bs ++ s)
      = (compareEntries as bs).then (orderCmp r s)
  | [], [], r, s => orderCmp_cons 0 0 r s
  | [], _ :: _, _, _ => orderCmp_cons 0 1 _ _
  | _ :: _, [], _, _ => orderCmp_cons 1 0 _ _
  | (k, a) :: as, (l, b) :: bs, r, s => by
    simp only [entriesKey, compareEntries, List.cons_append, List.append_assoc, orderCmp_cons,
      Ordering.then_assoc]
    rw [presents_string k l]
    show (compareStrings k l).then _ = _
    rw [orderCmp_cons]
    congr 1
    refine then_congr_of_eq fun hkind => ?_
    rw [orderCmp_payloadKey a b _ _ hkind, orderCmp_entriesKey as bs r s]

end

/-- Numbers of every width, then the payloads of the other kinds. -/
noncomputable def scalarKey (v : PropertyValue) : ℤ ×ₗ (WithBot ExtRat ×ₗ List ℤ) :=
  toLex (LiteralOrder.scalarNumeric.kind v,
    toLex ((canonicalNumber v).elim ⊥ fun number => (number.value : WithBot ExtRat),
      if isNumeric v then [] else payloadKey v))

theorem compareNumbers_eq (x y : Option CanonicalNumber) :
    compareNumbers x y
      = orderCmp (x.elim ⊥ fun number => (number.value : WithBot ExtRat))
          (y.elim ⊥ fun number => (number.value : WithBot ExtRat)) := by
  cases x with
  | none =>
    cases y with
    | none => exact (orderCmp_self _).symm
    | some n => exact (orderCmp_lt_iff.mpr (WithBot.bot_lt_coe _)).symm
  | some m =>
    cases y with
    | none => exact (orderCmp_gt_iff.mpr (WithBot.bot_lt_coe _)).symm
    | some n =>
      show compare m n = _
      rw [compare_eq]
      exact (WithBot.coe_strictMono.cmp_map_eq _ _).symm

theorem canonicalNumber_of_not_isNumeric (h : isNumeric v = false) :
    canonicalNumber v = none := by
  cases v <;> first | rfl | cases h

/-- Values of one scalar kind are both numbers or of one typed kind. -/
theorem typed_kind_eq (h : LiteralOrder.scalarNumeric.kind a = LiteralOrder.scalarNumeric.kind b) :
    isNumeric a = isNumeric b ∧
      (isNumeric a = false → LiteralOrder.typed.kind a = LiteralOrder.typed.kind b) := by
  cases a <;> cases b <;> simp [LiteralOrder.kind, isNumeric] at h ⊢

/-- **The scalar order is that of the key.** -/
theorem LiteralOrder.compare_eq_orderCmp (a b : PropertyValue) :
    LiteralOrder.scalarNumeric.compare a b = orderCmp (scalarKey a) (scalarKey b) := by
  rw [orderCmp_prodLex, orderCmp_prodLex]
  refine then_congr_of_eq fun hkind => ?_
  obtain ⟨hnumeric, htyped⟩ := typed_kind_eq hkind
  cases hna : isNumeric a with
  | true =>
    simp only [hna, hnumeric ▸ hna, scalarKey, ofLex_toLex]
    rw [← compareNumbers_eq]
    cases compareNumbers (canonicalNumber a) (canonicalNumber b) <;> rfl
  | false =>
    have hpayload := orderCmp_payloadKey a b [] [] (htyped hna)
    rw [List.append_nil, List.append_nil] at hpayload
    simp only [hna, ← hnumeric, scalarKey, ofLex_toLex, Bool.false_eq_true, if_false,
      canonicalNumber_of_not_isNumeric hna, canonicalNumber_of_not_isNumeric (hnumeric ▸ hna), hpayload]
    cases comparePayload a b <;> rfl

/-! ## §3. Order and equality agree. -/

theorem totalKey_injective : Function.Injective totalKey := by
  intro a b h
  apply UInt64.toNat_inj.mp
  unfold totalKey at h
  split at h <;> split at h <;> omega

theorem compareF64_eq_iff (a b : UInt64) : compareF64 a b = .eq ↔ unsignedZero a = unsignedZero b :=
  orderCmp_eq_iff.trans totalKey_injective.eq_iff

theorem unsignedZero_eq_zero_iff (a : UInt64) : unsignedZero a = 0 ↔ a.toNat % 2 ^ 63 = 0 := by
  unfold unsignedZero
  split
  · rename_i h
    exact ⟨fun _ => h, fun _ => rfl⟩
  · rename_i h
    refine ⟨fun hzero => absurd (by rw [hzero]; rfl) h, fun hzero => absurd hzero h⟩

theorem value_of_unsignedZero_eq_zero {a : UInt64} (h : a.toNat % 2 ^ 63 = 0) :
    f64Bits.value a.toNat = some (ExtRat.finite 0) := by
  have hlt := a.toNat_lt
  have hcases : a.toNat = 0 ∨ a.toNat = 2 ^ 63 := by omega
  rcases hcases with h | h <;> rw [h] <;>
    norm_num [FloatLayout.value, FloatLayout.Special, FloatLayout.exponentField,
      FloatLayout.fractionField, FloatLayout.magnitude, dyadic,
      f64Bits]

/-- Equal floats take one place. -/
theorem compareF64_of_floatEq {a b : UInt64}
    (h : floatEq f64Bits.toFloatLayout a.toNat b.toNat = true) : compareF64 a b = .eq := by
  obtain ⟨v, ha, hb⟩ := (Property.floatEq_iff _ _ _).mp h
  rw [compareF64_eq_iff]
  rcases FloatLayout.value_inj _ a.toNat_lt b.toNat_lt ha hb with heq | ⟨hza, hzb⟩
  · rw [UInt64.toNat_inj.mp heq]
  · rw [(unsignedZero_eq_zero_iff a).mpr hza, (unsignedZero_eq_zero_iff b).mpr hzb]

/-- Floats of one place are equal, unless they are no numbers. -/
theorem floatEq_of_compareF64 {a b : UInt64} (h : compareF64 a b = .eq)
    (hself : floatEq f64Bits.toFloatLayout a.toNat a.toNat = true) :
    floatEq f64Bits.toFloatLayout a.toNat b.toNat = true := by
  rw [compareF64_eq_iff] at h
  by_cases hzero : a.toNat % 2 ^ 63 = 0
  · have hb : b.toNat % 2 ^ 63 = 0 := by
      rw [← unsignedZero_eq_zero_iff, ← h, unsignedZero_eq_zero_iff]
      exact hzero
    exact (Property.floatEq_iff _ _ _).mpr
      ⟨_, value_of_unsignedZero_eq_zero hzero, value_of_unsignedZero_eq_zero hb⟩
  · have hb : ¬ b.toNat % 2 ^ 63 = 0 := by
      rw [← unsignedZero_eq_zero_iff, ← h, unsignedZero_eq_zero_iff]
      exact hzero
    unfold unsignedZero at h
    rw [if_neg hzero, if_neg hb] at h
    rwa [← h]

theorem compareF32_of_floatEq {a b : UInt32}
    (h : floatEq f32Bits.toFloatLayout a.toNat b.toNat = true) :
    compareF64 (Ast.f64FromF32 a) (Ast.f64FromF32 b) = .eq := by
  rw [← Ast.floatEq_f64FromF32] at h
  exact compareF64_of_floatEq h

theorem floatEq_of_compareF32 {a b : UInt32}
    (h : compareF64 (Ast.f64FromF32 a) (Ast.f64FromF32 b) = .eq)
    (hself : floatEq f32Bits.toFloatLayout a.toNat a.toNat = true) :
    floatEq f32Bits.toFloatLayout a.toNat b.toNat = true := by
  rw [← Ast.floatEq_f64FromF32] at hself ⊢
  exact floatEq_of_compareF64 h hself

theorem compareBytes_eq_iff (a b : Bytes) : compareBytes a b = .eq ↔ a = b :=
  lexCompare_eq_iff_eq (fun _ _ =>
    orderCmp_eq_iff.trans (Nat.cast_injective.eq_iff.trans UInt8.toNat_inj)) a b

theorem compareStrings_eq_iff (a b : String) : compareStrings a b = .eq ↔ a = b :=
  (compareBytes_eq_iff _ _).trans utf8Bytes_injective.eq_iff

/-- Slices of equal items take one place. -/
theorem lexCompare_of_slices {α : Type} {R : α → α → Bool} {c : α → α → Ordering}
    (hR : ∀ x y, R x y = true → c x y = .eq) {a b : List α}
    (h : (a.length == b.length && (a.zip b).all fun (x, y) => R x y) = true) :
    lexCompare c a b = .eq := by
  rw [Property.slices_all_iff] at h
  rw [lexCompare_eq_iff]
  exact h.imp fun x y hxy => hR x y hxy

/-- Slices of one place are equal item by item, if the first equals itself. -/
theorem slices_of_lexCompare {α : Type} {R : α → α → Bool} {c : α → α → Ordering}
    (hR : ∀ x y, c x y = .eq → R x x = true → R x y = true) {a b : List α}
    (h : lexCompare c a b = .eq)
    (hself : (a.length == a.length && (a.zip a).all fun (x, y) => R x y) = true) :
    (a.length == b.length && (a.zip b).all fun (x, y) => R x y) = true := by
  rw [Property.slices_all_iff] at hself ⊢
  rw [lexCompare_eq_iff] at h
  induction h with
  | nil => exact .nil
  | cons hxy _ ih =>
    cases hself with
    | cons hxx hrest => exact .cons (hR _ _ hxy hxx) (ih hrest)

theorem compareI64s_eq_iff (a b : List Int64) :
    lexCompare (fun a b : Int64 => orderCmp a.toInt b.toInt) a b = .eq ↔ a = b :=
  lexCompare_eq_iff_eq (fun _ _ => orderCmp_eq_iff.trans Int64.toInt_inj) a b

mutual

/-- Literals equal by the derived equality take one place. -/
theorem comparePayload_of_beq (a b : PropertyValue) (h : PropertyValue.beq a b = true) :
    LiteralOrder.typed.kind a = LiteralOrder.typed.kind b ∧ comparePayload a b = .eq := by
  cases sameKind_of_beq h with
  | f64 => exact ⟨rfl, compareF64_of_floatEq h⟩
  | f32 => exact ⟨rfl, compareF32_of_floatEq h⟩
  | f64Array => exact ⟨rfl, lexCompare_of_slices (fun _ _ => compareF64_of_floatEq) h⟩
  | f32Array => exact ⟨rfl, lexCompare_of_slices (fun _ _ => compareF32_of_floatEq) h⟩
  | array a b => exact ⟨rfl, compareValues_of_beqList a b h⟩
  | object a b => exact ⟨rfl, compareEntries_of_beqEntries a b h⟩
  | null => exact ⟨rfl, rfl⟩
  | bool | i64 | dateTime =>
    rw [PropertyValue.beq, beq_iff_eq] at h
    subst h
    exact ⟨rfl, orderCmp_self _⟩
  | string => exact ⟨rfl, (compareStrings_eq_iff _ _).mpr (eq_of_beq h)⟩
  | bytes => exact ⟨rfl, (compareBytes_eq_iff _ _).mpr (eq_of_beq h)⟩
  | i64Array => exact ⟨rfl, (compareI64s_eq_iff _ _).mpr (eq_of_beq h)⟩
  | stringArray =>
    exact ⟨rfl, (lexCompare_eq_iff_eq compareStrings_eq_iff _ _).mpr (eq_of_beq h)⟩

theorem compareValues_of_beqList : ∀ as bs : List PropertyValue,
    beqList as bs = true → compareValues as bs = .eq
  | [], [], _ => rfl
  | [], _ :: _, h => by simp [beqList] at h
  | _ :: _, [], h => by simp [beqList] at h
  | a :: as, b :: bs, h => by
    rw [beqList, Bool.and_eq_true] at h
    obtain ⟨hkind, hpayload⟩ := comparePayload_of_beq a b h.1
    rw [compareValues, hkind, orderCmp_self, hpayload, compareValues_of_beqList as bs h.2]
    rfl

theorem compareEntries_of_beqEntries : ∀ as bs : List (String × PropertyValue),
    beqEntries as bs = true → compareEntries as bs = .eq
  | [], [], _ => rfl
  | [], _ :: _, h => by simp [beqEntries] at h
  | _ :: _, [], h => by simp [beqEntries] at h
  | (k, a) :: as, (l, b) :: bs, h => by
    rw [beqEntries, Bool.and_eq_true, Bool.and_eq_true, beq_iff_eq] at h
    obtain ⟨hkind, hpayload⟩ := comparePayload_of_beq a b h.1.2
    rw [compareEntries, (compareStrings_eq_iff k l).mpr h.1.1, hkind, orderCmp_self, hpayload,
      compareEntries_of_beqEntries as bs h.2]
    rfl

end

mutual

/-- Literals of one place are equal by the derived equality, if the first equals itself. -/
theorem beq_of_comparePayload (a b : PropertyValue)
    (hkind : LiteralOrder.typed.kind a = LiteralOrder.typed.kind b)
    (h : comparePayload a b = .eq) (hself : PropertyValue.beq a a = true) :
    PropertyValue.beq a b = true := by
  cases sameKind_of_kind hkind with
  | null => rfl
  | bool a b =>
    have heq : (a.toNat : ℤ) = b.toNat := orderCmp_eq_iff.mp h
    cases a <;> cases b <;> simp_all
  | i64 | dateTime => exact beq_iff_eq.mpr (Int64.toInt_inj.mp (orderCmp_eq_iff.mp h))
  | f64 => exact floatEq_of_compareF64 h hself
  | f32 => exact floatEq_of_compareF32 h hself
  | string => exact beq_iff_eq.mpr ((compareStrings_eq_iff _ _).mp h)
  | bytes => exact beq_iff_eq.mpr ((compareBytes_eq_iff _ _).mp h)
  | i64Array => exact beq_iff_eq.mpr ((compareI64s_eq_iff _ _).mp h)
  | f64Array =>
    exact slices_of_lexCompare (R := fun x y : UInt64 => floatEq
      f64Bits.toFloatLayout x.toNat y.toNat) (fun _ _ => floatEq_of_compareF64) h hself
  | f32Array =>
    exact slices_of_lexCompare (R := fun x y : UInt32 => floatEq
      f32Bits.toFloatLayout x.toNat y.toNat) (fun _ _ => floatEq_of_compareF32) h hself
  | stringArray =>
    exact beq_iff_eq.mpr ((lexCompare_eq_iff_eq compareStrings_eq_iff _ _).mp h)
  | array a b => exact beqList_of_compareValues a b h hself
  | object a b => exact beqEntries_of_compareEntries a b h hself

theorem beqList_of_compareValues : ∀ as bs : List PropertyValue, compareValues as bs = .eq →
    beqList as as = true → beqList as bs = true
  | [], [], _, _ => rfl
  | [], _ :: _, h, _ => by cases h
  | _ :: _, [], h, _ => by cases h
  | a :: as, b :: bs, h, hself => by
    rw [compareValues, Ordering.then_eq_eq, Ordering.then_eq_eq, orderCmp_eq_iff] at h
    rw [beqList, Bool.and_eq_true] at hself ⊢
    exact ⟨beq_of_comparePayload a b h.1.1 h.1.2 hself.1,
      beqList_of_compareValues as bs h.2 hself.2⟩

theorem beqEntries_of_compareEntries : ∀ as bs : List (String × PropertyValue),
    compareEntries as bs = .eq → beqEntries as as = true →
      beqEntries as bs = true
  | [], [], _, _ => rfl
  | [], _ :: _, h, _ => by cases h
  | _ :: _, [], h, _ => by cases h
  | (k, a) :: as, (l, b) :: bs, h, hself => by
    rw [compareEntries, Ordering.then_eq_eq, Ordering.then_eq_eq, Ordering.then_eq_eq,
      orderCmp_eq_iff, compareStrings_eq_iff] at h
    rw [beqEntries, Bool.and_eq_true, Bool.and_eq_true] at hself ⊢
    exact ⟨⟨beq_iff_eq.mpr h.1.1, beq_of_comparePayload a b h.1.2.1 h.1.2.2 hself.1.2⟩,
      beqEntries_of_compareEntries as bs h.2 hself.2⟩

end

theorem compareNumbers_self (x : Option CanonicalNumber) : compareNumbers x x = .eq := by
  rw [compareNumbers_eq, orderCmp_self]

theorem eq_of_compareNumbers {x y : Option CanonicalNumber} (h : compareNumbers x y = .eq) :
    x = y := by
  rw [compareNumbers_eq, orderCmp_eq_iff] at h
  cases x <;> cases y <;> simp_all [value_injective.eq_iff]

theorem kind_of_isNumeric (h : isNumeric v = true) :
    LiteralOrder.scalarNumeric.kind v = 2 := by
  cases v <;> simp [LiteralOrder.kind, isNumeric] at h ⊢

/-- **Equal literals take one place.** -/
theorem compare_eq_of_equal (h : propertyValuesEqual a b = true) :
    LiteralOrder.scalarNumeric.compare a b = .eq := by
  unfold LiteralOrder.compare
  cases hna : isNumeric a with
  | true =>
    have hnb : isNumeric b = true := by
      cases a <;> cases b <;> simp_all [propertyValuesEqual, isNumeric]
    rw [propertyValuesEqual_of_numeric hna hnb, Property.sameNumber_iff] at h
    obtain ⟨n, ha, hb⟩ := h
    rw [kind_of_isNumeric hna, kind_of_isNumeric hnb, ha, hb,
      compareNumbers_self]
    rfl
  | false =>
    rw [propertyValuesEqual_eq_beq hna] at h
    obtain ⟨hkind, hpayload⟩ := comparePayload_of_beq a b h
    have hscalar : LiteralOrder.scalarNumeric.kind a = LiteralOrder.scalarNumeric.kind b := by
      cases a <;> cases b <;> simp [LiteralOrder.kind] at hkind hna ⊢
    rw [hscalar, orderCmp_self, hpayload]
    rfl

/-- **Literals of one place are equal**, if the first equals itself. -/
theorem equal_of_compare_eq
    (h : LiteralOrder.scalarNumeric.compare a b = .eq) (hself : propertyValuesEqual a a = true) :
    propertyValuesEqual a b = true := by
  rw [LiteralOrder.compare, Ordering.then_eq_eq, orderCmp_eq_iff] at h
  obtain ⟨hkind, hrest⟩ := h
  obtain ⟨hnumeric, htyped⟩ := typed_kind_eq hkind
  cases hna : isNumeric a with
  | true =>
    rw [hna] at hrest
    rw [propertyValuesEqual_of_numeric hna hna] at hself
    rwa [propertyValuesEqual_of_numeric hna (hnumeric ▸ hna), ← eq_of_compareNumbers hrest]
  | false =>
    rw [hna] at hrest
    rw [propertyValuesEqual_eq_beq hna] at hself ⊢
    exact beq_of_comparePayload a b (htyped hna) hrest hself

/-! ## §4. Membership. -/

section Membership

variable {α : Type} (values : List α) (probes : Nat) (compare : α → α → Ordering)
  (equal : α → α → Bool)

/-- `membership_by`: what it answers for one probe.  The order that sorting
leaves among places that compare equal is not relied on. -/
def membershipBy (value : α) : Bool :=
  if 16 < values.length ∧ 16 < probes then
    let candidates := values.mergeSort fun left right => compare left right != .gt
    match binarySearchBy (fun candidate => compare candidate value) candidates with
    | some index => (candidates[index]?).any (equal value)
    | none => false
  else values.any (equal value)

variable {κ : Type} [LinearOrder κ] {values compare equal} {key : α → κ}

/-- A list sorted by key ascends for every probe. -/
theorem ascending_mergeSort (hkey : ∀ a b, compare a b = orderCmp (key a) (key b)) (value : α) :
    Ascending (fun candidate => compare candidate value)
      (values.mergeSort fun left right => compare left right != .gt) := by
  have hle : ∀ a b, (compare a b != .gt) = true ↔ key a ≤ key b := by
    intro a b
    rw [bne_iff_ne, hkey, Ne, orderCmp_gt_iff, not_lt]
  have hsorted : (values.mergeSort fun left right => compare left right != .gt).Pairwise
      fun left right => (compare left right != .gt) = true := List.pairwise_mergeSort
    (fun a b c hab hbc => (hle a c).mpr (((hle a b).mp hab).trans ((hle b c).mp hbc)))
    (fun a b => by
      rw [Bool.or_eq_true, hle, hle]
      exact le_total _ _) values
  refine hsorted.imp fun {a b} hab => ?_
  rw [hle] at hab
  simp only [hkey, orderCmp_gt_iff, orderCmp_lt_iff]
  exact ⟨fun h => h.trans_le hab, fun h => hab.trans_lt h⟩

/-- **Both strategies are membership by equality**, if equal values take one
place and the values of one place are equal or equal nothing. -/
theorem membershipBy_eq_any (hkey : ∀ a b, compare a b = orderCmp (key a) (key b))
    (hplace : ∀ a b, equal a b = true → compare a b = .eq)
    (hclass : ∀ a b c, equal a b = true → compare a c = .eq → equal a c = true) (value : α) :
    membershipBy values probes compare equal value = values.any (equal value) := by
  unfold membershipBy
  split_ifs with hwide
  · rw [Bool.eq_iff_iff, List.any_eq_true]
    have hperm := List.mergeSort_perm values fun left right => compare left right != .gt
    have hswap : ∀ a b, compare a b = .eq → compare b a = .eq := by
      intro a b hab
      rw [hkey, orderCmp_eq_iff] at hab ⊢
      exact hab.symm
    constructor
    · intro h
      cases hfound : binarySearchBy (fun candidate => compare candidate value)
          (values.mergeSort fun left right => compare left right != .gt) with
      | none => simp [hfound] at h
      | some index =>
        obtain ⟨candidate, hget, _⟩ := binarySearchBy_some hfound
        simp only [hfound, hget] at h
        exact ⟨candidate, hperm.mem_iff.mp (List.mem_of_getElem? hget), h⟩
    · rintro ⟨candidate, hmem, hequal⟩
      -- The search stops at some place of the candidate's class.
      obtain ⟨index, hfound⟩ := binarySearchBy_isSome (ascending_mergeSort hkey value)
        (hperm.mem_iff.mpr hmem) (hswap _ _ (hplace _ _ hequal))
      obtain ⟨other, hget, hother⟩ := binarySearchBy_some hfound
      simp only [hfound, hget]
      exact hclass value candidate other hequal (hswap _ _ hother)
  · rfl

end Membership

/-- Membership of a literal in a list of literals. -/
theorem membershipBy_literals (values : List PropertyValue) (probes : Nat) (v : PropertyValue) :
    membershipBy values probes LiteralOrder.scalarNumeric.compare propertyValuesEqual v
      = values.any (propertyValuesEqual v) := by
  refine membershipBy_eq_any probes (LiteralOrder.compare_eq_orderCmp)
    (fun _ _ => compare_eq_of_equal) (fun a b c hab hac => equal_of_compare_eq hac ?_) v
  exact propertyValuesEqual_trans hab (propertyValuesEqual_symm hab)

end HelixDb.Planner
