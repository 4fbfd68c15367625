/-
  HelixDb.Property.Compare

  **QUERY COMPARISON OF PROPERTY VALUES**: `compare`, membership in a literal
  collection, and the laws of `eq_value` and `compare` that a proof about
  predicates needs.

  Values compare within the numeric, datetime and string domains only; a
  comparison is one in the linear order of range keys.

    • `PropertyValue.eqValue_symm`, `PropertyValue.eqValue_trans` — `eq_value`
      is a partial equivalence (a value with a NaN equals nothing),
    • `PropertyValue.compare_eq` — comparing is comparing range keys of one domain,
    • `PropertyValue.compare_congr` — equal values compare alike,
    • `range_index_follows_compare` — encoded values sort as values compare.
-/
import HelixDb.Property.RangeIndexValue

namespace HelixDb.Property

open HelixDb.Lib CanonicalNumber

/-! ## §1. Comparison and membership. -/

namespace PropertyValue

/-- `compare`: numbers by exact value, datetimes and strings within their own domain. -/
def compare (self other : PropertyValue) : Option Ordering :=
  if self.isNumeric && other.isNumeric then
    match fromProperty self, fromProperty other with
    | some left, some right => some (Ord.compare left right)
    | _, _ => none
  else
    match self, other with
    | .dateTime left, .dateTime right => some (cmp left.toInt right.toInt)
    | .string left, .string right => some (cmp (utf8Bytes left) (utf8Bytes right))
    | _, _ => none

/-! ## §2. Equality is a partial equivalence. -/

end PropertyValue

variable {a v b x w : PropertyValue}

/-- Element-wise agreement of two slices, as the source writes it. -/
theorem slices_all_iff {α : Type} (R : α → α → Bool) (a b : List α) :
    (a.length == b.length && (a.zip b).all fun (x, y) => R x y) = true ↔
      List.Forall₂ (fun x y => R x y = true) a b := by
  rw [List.forall₂_iff_zip, Bool.and_eq_true, beq_iff_eq, List.all_eq_true]
  refine and_congr_right fun _ => ⟨fun h x y hxy => h (x, y) hxy, fun h p hp => ?_⟩
  exact h hp

section Slices

variable {α : Type} {R : α → α → Bool}

theorem slices_all_symm (hR : ∀ x y, R x y = true → R y x = true) {a b : List α}
    (h : (a.length == b.length && (a.zip b).all fun (x, y) => R x y) = true) :
    (b.length == a.length && (b.zip a).all fun (x, y) => R x y) = true := by
  rw [slices_all_iff] at h ⊢
  exact (List.Forall₂.imp (fun x y hxy => hR x y hxy) h).flip

theorem slices_all_trans (hR : ∀ x y z, R x y = true → R y z = true → R x z = true)
    {a b c : List α} (hab : (a.length == b.length && (a.zip b).all fun (x, y) => R x y) = true)
    (hbc : (b.length == c.length && (b.zip c).all fun (x, y) => R x y) = true) :
    (a.length == c.length && (a.zip c).all fun (x, y) => R x y) = true := by
  rw [slices_all_iff] at hab hbc ⊢
  induction hab generalizing c with
  | nil =>
    cases hbc
    exact .nil
  | cons hxy _ ih =>
    cases hbc with
    | cons hyz hrest => exact .cons (hR _ _ _ hxy hyz) (ih hrest)

end Slices

theorem floatEq_iff (layout : FloatLayout) (x y : Nat) :
    floatEq layout x y = true ↔ ∃ v, layout.value x = some v ∧ layout.value y = some v := by
  unfold floatEq
  cases layout.value x with
  | none => simp
  | some v =>
    cases layout.value y with
    | none => simp
    | some w =>
      simp only [decide_eq_true_eq, Option.some.injEq, exists_eq_left']
      exact eq_comm

theorem sameNumber_iff (x y : Option CanonicalNumber) :
    sameNumber x y = true ↔ ∃ n, x = some n ∧ y = some n := by
  unfold sameNumber
  cases x with
  | none => simp
  | some m =>
    cases y with
    | none => simp
    | some n =>
      simp only [beq_iff_eq, Option.some.injEq, exists_eq_left']
      exact eq_comm

theorem floatEq_symm {layout : FloatLayout} (x y : Nat) (h : floatEq layout x y = true) :
    floatEq layout y x = true := by
  obtain ⟨v, hx, hy⟩ := (floatEq_iff layout x y).mp h
  exact (floatEq_iff layout y x).mpr ⟨v, hy, hx⟩

theorem floatEq_trans {layout : FloatLayout} (x y z : Nat) (hxy : floatEq layout x y = true)
    (hyz : floatEq layout y z = true) : floatEq layout x z = true := by
  obtain ⟨v, hx, hy⟩ := (floatEq_iff layout x y).mp hxy
  obtain ⟨w, hy', hz⟩ := (floatEq_iff layout y z).mp hyz
  rw [hy] at hy'
  exact (floatEq_iff layout x z).mpr ⟨v, hx, Option.some.inj hy' ▸ hz⟩

theorem sameNumber_symm {x y : Option CanonicalNumber} (h : sameNumber x y = true) :
    sameNumber y x = true := by
  obtain ⟨n, hx, hy⟩ := (sameNumber_iff x y).mp h
  exact (sameNumber_iff y x).mpr ⟨n, hy, hx⟩

theorem sameNumber_trans {x y z : Option CanonicalNumber} (hxy : sameNumber x y = true)
    (hyz : sameNumber y z = true) : sameNumber x z = true := by
  obtain ⟨n, hx, hy⟩ := (sameNumber_iff x y).mp hxy
  obtain ⟨m, hy', hz⟩ := (sameNumber_iff y z).mp hyz
  rw [hy] at hy'
  exact (sameNumber_iff x z).mpr ⟨n, hx, Option.some.inj hy' ▸ hz⟩

section NumericSlices

variable {α : Type} {canonical : α → Option CanonicalNumber} {xs ys zs : List α}

theorem numericSlicesEqual_symm (h : numericSlicesEqual canonical xs ys = true) :
    numericSlicesEqual canonical ys xs = true :=
  slices_all_symm (R := fun x y => sameNumber (canonical x) (canonical y))
    (fun _ _ hxy => sameNumber_symm hxy) h

theorem numericSlicesEqual_trans (hxy : numericSlicesEqual canonical xs ys = true)
    (hyz : numericSlicesEqual canonical ys zs = true) : numericSlicesEqual canonical xs zs = true :=
  slices_all_trans (R := fun x y => sameNumber (canonical x) (canonical y))
    (fun _ _ _ h h' => sameNumber_trans h h') hxy hyz

end NumericSlices

namespace PropertyValue

mutual

theorem beq_symm (a b : PropertyValue) (h : beq a b = true) : beq b a = true := by
  cases sameKind_of_beq h with
  | f64 | f32 => exact floatEq_symm _ _ h
  | f64Array => exact slices_all_symm (fun (x y : UInt64) => floatEq_symm x.toNat y.toNat) h
  | f32Array => exact slices_all_symm (fun (x y : UInt32) => floatEq_symm x.toNat y.toNat) h
  | array a b => exact beqList_symm a b h
  | object a b => exact beqEntries_symm a b h
  | _ => simp_all [beq]

theorem beqList_symm : ∀ a b : List PropertyValue, beqList a b = true → beqList b a = true
  | [], b, h => by cases b <;> simp_all [beqList]
  | a :: as, b, h => by
    cases b with
    | nil => simp [beqList] at h
    | cons b bs =>
      simp only [beqList, Bool.and_eq_true] at h ⊢
      exact ⟨beq_symm a b h.1, beqList_symm as bs h.2⟩

theorem beqEntries_symm :
    ∀ a b : List (String × PropertyValue), beqEntries a b = true → beqEntries b a = true
  | [], b, h => by cases b <;> simp_all [beqEntries]
  | (k, a) :: as, b, h => by
    cases b with
    | nil => simp [beqEntries] at h
    | cons b bs =>
      simp only [beqEntries, Bool.and_eq_true, beq_iff_eq] at h ⊢
      exact ⟨⟨h.1.1.symm, beq_symm a b.2 h.1.2⟩, beqEntries_symm as bs h.2⟩

end

mutual

theorem beq_trans (a b c : PropertyValue) (h : beq a b = true) (h' : beq b c = true) :
    beq a c = true := by
  cases sameKind_of_beq h <;> cases sameKind_of_beq h'
  case f64.f64 | f32.f32 => exact floatEq_trans _ _ _ h h'
  case f64Array.f64Array =>
    exact slices_all_trans (fun (x y z : UInt64) => floatEq_trans x.toNat y.toNat z.toNat) h h'
  case f32Array.f32Array =>
    exact slices_all_trans (fun (x y z : UInt32) => floatEq_trans x.toNat y.toNat z.toNat) h h'
  case array.array a b c => exact beqList_trans a b c h h'
  case object.object a b c => exact beqEntries_trans a b c h h'
  all_goals simp_all [beq]

theorem beqList_trans : ∀ a b c : List PropertyValue,
    beqList a b = true → beqList b c = true → beqList a c = true
  | [], b, c, h, h' => by cases b <;> cases c <;> simp_all [beqList]
  | a :: as, b, c, h, h' => by
    cases b with
    | nil => simp [beqList] at h
    | cons b bs =>
      cases c with
      | nil => simp [beqList] at h'
      | cons c cs =>
        simp only [beqList, Bool.and_eq_true] at h h' ⊢
        exact ⟨beq_trans a b c h.1 h'.1, beqList_trans as bs cs h.2 h'.2⟩

theorem beqEntries_trans : ∀ a b c : List (String × PropertyValue),
    beqEntries a b = true → beqEntries b c = true → beqEntries a c = true
  | [], b, c, h, h' => by cases b <;> cases c <;> simp_all [beqEntries]
  | (k, a) :: as, b, c, h, h' => by
    cases b with
    | nil => simp [beqEntries] at h
    | cons b bs =>
      cases c with
      | nil => simp [beqEntries] at h'
      | cons c cs =>
        simp only [beqEntries, Bool.and_eq_true, beq_iff_eq] at h h' ⊢
        exact ⟨⟨h.1.1.trans h'.1.1, beq_trans a b.2 c.2 h.1.2 h'.1.2⟩,
          beqEntries_trans as bs cs h.2 h'.2⟩

end

/-- **The shapes of equal values**: two numbers with one canonical form, two float arrays
    that agree element by element, two nested values equal by the derived equality, or one
    value of a remaining kind twice. -/
theorem eqValue_cases (h : eqValue a b = true) :
    (a.isNumeric = true ∧ b.isNumeric = true ∧
      sameNumber (fromProperty a) (fromProperty b) = true) ∨
    (∃ xs ys, a = .f64Array xs ∧ b = .f64Array ys ∧
      numericSlicesEqual fromF64 xs ys = true) ∨
    (∃ xs ys, a = .f32Array xs ∧ b = .f32Array ys ∧
      numericSlicesEqual fromF32 xs ys = true) ∨
    (∃ xs ys, a = .array xs ∧ b = .array ys ∧ beqList xs ys = true) ∨
    (∃ xs ys, a = .object xs ∧ b = .object ys ∧ beqEntries xs ys = true) ∨
    (a.isNumeric = false ∧ a = b ∧ eqValue a a = true) := by
  unfold eqValue at h
  split_ifs at h with hnum
  · rw [Bool.and_eq_true] at hnum
    exact .inl ⟨hnum.1, hnum.2, h⟩
  · cases a <;> cases b <;> simp only [Bool.false_eq_true, beq_iff_eq] at h
    all_goals first
      | exact .inr (.inl ⟨_, _, rfl, rfl, h⟩)
      | exact .inr (.inr (.inl ⟨_, _, rfl, rfl, h⟩))
      | exact .inr (.inr (.inr (.inl ⟨_, _, rfl, rfl, h⟩)))
      | exact .inr (.inr (.inr (.inr (.inl ⟨_, _, rfl, rfl, h⟩))))
      | (subst h; exact .inr (.inr (.inr (.inr (.inr (by simp [eqValue, isNumeric]))))))
      | exact .inr (.inr (.inr (.inr (.inr (by simp [eqValue, isNumeric])))))

theorem eqValue_of_numeric (ha : a.isNumeric = true) (hb : b.isNumeric = true) :
    eqValue a b = sameNumber (fromProperty a) (fromProperty b) := by
  simp [eqValue, ha, hb]

/-- **Equality is symmetric.** -/
theorem eqValue_symm (h : eqValue a b = true) : eqValue b a = true := by
  rcases eqValue_cases h with ⟨ha, hb, hsame⟩ | ⟨xs, ys, rfl, rfl, heq⟩ | ⟨xs, ys, rfl, rfl, heq⟩ |
    ⟨xs, ys, rfl, rfl, heq⟩ | ⟨xs, ys, rfl, rfl, heq⟩ | ⟨_, rfl, hself⟩
  · rw [eqValue_of_numeric hb ha]
    exact sameNumber_symm hsame
  · exact numericSlicesEqual_symm heq
  · exact numericSlicesEqual_symm heq
  · exact beqList_symm _ _ heq
  · exact beqEntries_symm _ _ heq
  · exact hself

/-- **Equality is transitive.** -/
theorem eqValue_trans {a b c : PropertyValue} (hab : eqValue a b = true)
    (hbc : eqValue b c = true) : eqValue a c = true := by
  rcases eqValue_cases hab with ⟨ha, hb, hsame⟩ | ⟨xs, ys, rfl, rfl, heq⟩ |
    ⟨xs, ys, rfl, rfl, heq⟩ | ⟨xs, ys, rfl, rfl, heq⟩ | ⟨xs, ys, rfl, rfl, heq⟩ | ⟨_, rfl, _⟩
  · rcases eqValue_cases hbc with ⟨_, hc, hsame'⟩ | ⟨xs, _, rfl, _, _⟩ | ⟨xs, _, rfl, _, _⟩ |
      ⟨xs, _, rfl, _, _⟩ | ⟨xs, _, rfl, _, _⟩ | ⟨hb', _, _⟩
    · rw [eqValue_of_numeric ha hc]
      exact sameNumber_trans hsame hsame'
    all_goals simp_all [isNumeric]
  case inr.inr.inr.inr.inr => exact hbc
  all_goals cases c <;> simp only [eqValue, isNumeric, Bool.and_self, Bool.false_and,
    Bool.false_eq_true, if_false] at hbc ⊢
  · exact numericSlicesEqual_trans heq hbc
  · exact numericSlicesEqual_trans heq hbc
  · exact beqList_trans _ _ _ heq hbc
  · exact beqEntries_trans _ _ _ heq hbc

theorem eqValue_null_iff : eqValue a .null = true ↔ a = .null := by
  cases a <;> simp [eqValue, isNumeric]

/-! ## §3. Comparing is comparing range keys. -/

/-- Comparison of range keys, within one domain. -/
def keyCompare (k l : RangeKey) : Option Ordering :=
  match ofLex k, ofLex l with
  | .inl x, .inl y => some (cmp x y)
  | .inr x, .inr y =>
    match ofLex x, ofLex y with
    | .inl x, .inl y => some (cmp x y)
    | .inr x, .inr y => some (cmp x y)
    | _, _ => none
  | _, _ => none

/-- The domain of a range key. -/
def keyDomain (k : RangeKey) : Nat :=
  match ofLex k with
  | .inl _ => 0
  | .inr x => match ofLex x with
    | .inl _ => 1
    | .inr _ => 2

/-- Keys compare exactly when they share a domain, and then as the linear order has them. -/
theorem keyCompare_eq (k l : RangeKey) :
    keyCompare k l = if keyDomain k = keyDomain l then some (cmp k l) else none := by
  obtain ⟨k, rfl⟩ := toLex.surjective k
  obtain ⟨l, rfl⟩ := toLex.surjective l
  have hinl : ∀ x y : ExtRat, cmp (toLex (Sum.inl x) : RangeKey) (toLex (Sum.inl y)) = cmp x y := by
    intro x y
    simp only [cmp, cmpUsing, Sum.Lex.inl_lt_inl_iff]
  have hinr : ∀ x y : ℤ ⊕ₗ Bytes,
      cmp (toLex (Sum.inr x) : RangeKey) (toLex (Sum.inr y)) = cmp x y := by
    intro x y
    simp only [cmp, cmpUsing, Sum.Lex.inr_lt_inr_iff]
  have hdate : ∀ x y : ℤ, cmp (toLex (Sum.inl x) : ℤ ⊕ₗ Bytes) (toLex (Sum.inl y)) = cmp x y := by
    intro x y
    simp only [cmp, cmpUsing, Sum.Lex.inl_lt_inl_iff]
  have htext : ∀ x y : Bytes,
      cmp (toLex (Sum.inr x) : ℤ ⊕ₗ Bytes) (toLex (Sum.inr y)) = cmp x y := by
    intro x y
    simp only [cmp, cmpUsing, Sum.Lex.inr_lt_inr_iff]
  rcases k with x | x <;> rcases l with y | y
  · exact congrArg some (hinl x y).symm
  · obtain ⟨y, rfl⟩ := toLex.surjective y
    rcases y with y | y <;> rfl
  · obtain ⟨x, rfl⟩ := toLex.surjective x
    rcases x with x | x <;> rfl
  · -- The two inner domains: instants, then texts.
    obtain ⟨x, rfl⟩ := toLex.surjective x
    obtain ⟨y, rfl⟩ := toLex.surjective y
    rcases x with x | x <;> rcases y with y | y
    · exact congrArg some ((hinr _ _).trans (hdate x y)).symm
    · rfl
    · rfl
    · exact congrArg some ((hinr _ _).trans (htext x y)).symm

theorem rangeKey_of_numeric (h : v.isNumeric = true) :
    rangeKey v = (fromProperty v).map fun n => Sum.inlₗ n.value := by
  cases v <;> simp only [isNumeric, Bool.false_eq_true] at h
  · simp only [rangeKey, fromProperty, Option.map_some,
      value_fromI64]
  · simp only [rangeKey, fromProperty, ← map_value_fromF64,
      Option.map_map, Function.comp_def]
  · simp only [rangeKey, fromProperty, ← map_value_fromF64,
      Option.map_map, Function.comp_def]

/-- **Comparing is comparing range keys.** -/
theorem compare_eq (v w : PropertyValue) :
    v.compare w = (rangeKey v).bind fun k => (rangeKey w).bind fun l => keyCompare k l := by
  unfold compare
  split_ifs with hnum
  · rw [Bool.and_eq_true] at hnum
    rw [rangeKey_of_numeric hnum.1, rangeKey_of_numeric hnum.2]
    cases fromProperty v with
    | none => rfl
    | some m =>
      cases fromProperty w with
      | none => rfl
      | some n => exact congrArg some (CanonicalNumber.compare_eq m n)
  · -- A float beside another kind has a key or not; either way nothing compares.
    cases v <;> cases w <;> first
      | rfl
      | exact absurd rfl hnum
      | (simp only [rangeKey]; cases f64Bits.value _ <;> rfl)

theorem rangeKey_eq_of_eqValue (h : eqValue x v = true) :
    rangeKey x = rangeKey v := by
  rcases eqValue_cases h with ⟨hx, hv, hsame⟩ | ⟨xs, ys, rfl, rfl, -⟩ | ⟨xs, ys, rfl, rfl, -⟩ |
    ⟨xs, ys, rfl, rfl, -⟩ | ⟨xs, ys, rfl, rfl, -⟩ | ⟨-, rfl, -⟩
  · obtain ⟨n, hn, hm⟩ := (sameNumber_iff _ _).mp hsame
    rw [rangeKey_of_numeric hx, rangeKey_of_numeric hv, hn, hm]
  all_goals rfl

/-- **Equal values compare alike.** -/
theorem compare_congr (h : eqValue x v = true) (b : PropertyValue) :
    x.compare b = v.compare b := by
  rw [compare_eq, compare_eq, rangeKey_eq_of_eqValue h]

/-- A comparison that succeeds is one of two keys of one domain. -/
theorem compare_eq_some {o : Ordering} (h : v.compare w = some o) :
    ∃ k l, rangeKey v = some k ∧ rangeKey w = some l ∧ keyDomain k = keyDomain l ∧ cmp k l = o := by
  rw [compare_eq] at h
  cases hv : rangeKey v with
  | none => simp [hv] at h
  | some k =>
    cases hw : rangeKey w with
    | none => simp [hv, hw] at h
    | some l =>
      rw [hv, hw, Option.bind_some, Option.bind_some, keyCompare_eq] at h
      by_cases hdomain : keyDomain k = keyDomain l
      · rw [if_pos hdomain] at h
        exact ⟨k, l, rfl, rfl, hdomain, Option.some.inj h⟩
      · simp [if_neg hdomain] at h

theorem compare_of_keys {k l : RangeKey} (hv : rangeKey v = some k)
    (hw : rangeKey w = some l) (hdomain : keyDomain k = keyDomain l) :
    v.compare w = some (cmp k l) := by
  rw [compare_eq, hv, hw, Option.bind_some, Option.bind_some, keyCompare_eq, if_pos hdomain]

/-- Comparing the other way swaps the answer. -/
theorem compare_swap {o : Ordering} (h : v.compare w = some o) :
    w.compare v = some o.swap := by
  obtain ⟨k, l, hk, hl, hdomain, rfl⟩ := compare_eq_some h
  rw [compare_of_keys hl hk hdomain.symm, cmp_swap]

/-- Values that compare equal are equal. -/
theorem eqValue_of_compare (h : v.compare w = some .eq) : v.eqValue w = true := by
  unfold compare at h
  unfold eqValue
  split_ifs at h ⊢ with hnum
  · cases hm : fromProperty v with
    | none => simp [hm] at h
    | some m =>
      cases hn : fromProperty w with
      | none => simp [hm, hn] at h
      | some n =>
        rw [hm, hn, Option.some_inj, CanonicalNumber.compare_eq, cmp_eq_eq_iff] at h
        exact (sameNumber_iff _ _).mpr ⟨m, rfl, congrArg some (value_injective h).symm⟩
  · cases v <;> cases w <;> simp_all [Int64.toInt_inj]
    -- only two strings are left
    exact utf8Bytes_injective (eq_of_cmp_eq h)

end PropertyValue

/-- **A range index orders values as predicates compare them.**  Of two indexed values, the encoded
ones are equal exactly when `eq_value` holds, and where `compare` gives an answer the encoded ones
are in that order, or in a descending index in the opposite one. -/
theorem range_index_follows_compare {direction : RangeIndexDirection} {cv cw : CanonicalRangeValue}
    (hv : projectRangeValue v direction = .indexed cv)
    (hw : projectRangeValue w direction = .indexed cw) :
    (cv.encoded = cw.encoded ↔ v.eqValue w = true) ∧
    ∀ o, v.compare w = some o →
      (if direction = .asc then o else o.swap).Compares cv.encoded cw.encoded := by
  obtain ⟨x, hx, hkeyx⟩ := projectRangeValue_eq_indexed hv
  obtain ⟨y, hy, hkeyy⟩ := projectRangeValue_eq_indexed hw
  refine ⟨?_, ?_⟩
  · rw [hx, hy, directed_eq_iff]
    refine ⟨fun h => PropertyValue.eqValue_of_compare ?_, fun h => ?_⟩
    · rw [PropertyValue.compare_of_keys hkeyx (h ▸ hkeyy) rfl, cmp_self_eq_eq]
    · have hkeys := PropertyValue.rangeKey_eq_of_eqValue h
      rwa [hkeyx, hkeyy, Option.some_inj] at hkeys
  · intro o ho
    obtain ⟨k, l, hk, hl, -, rfl⟩ := PropertyValue.compare_eq_some ho
    cases hkeyx.symm.trans hk
    cases hkeyy.symm.trans hl
    rw [hx, hy]
    cases direction with
    | asc => exact RangeScalar.orderedCode.compares x y
    | desc =>
      rw [if_neg (by decide), cmp_swap, ← cmp_toDual]
      exact RangeScalar.orderedCode.complement.compares x y

/-- The integer 2 and the float 2.5 in a descending index. -/
theorem range_index_follows_compare_descending :
    ∃ cv cw, projectRangeValue (.i64 2) .desc = .indexed cv ∧
      projectRangeValue (.f64 0x4004000000000000) .desc = .indexed cw ∧ cw.encoded < cv.encoded := by
  have hlt : (PropertyValue.i64 2).compare (.f64 0x4004000000000000) = some .lt := by
    decide +kernel
  obtain ⟨cv, hv⟩ : ∃ cv, projectRangeValue (.i64 2) .desc = .indexed cv := ⟨_, rfl⟩
  obtain ⟨cw, hw⟩ : ∃ cw, projectRangeValue (.f64 0x4004000000000000) .desc = .indexed cw := ⟨_, rfl⟩
  exact ⟨cv, cw, hv, hw, (range_index_follows_compare hv hw).2 _ hlt⟩

end HelixDb.Property
