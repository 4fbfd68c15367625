/-
  HelixDb.Planner.IndexRange

  **STATIC RANGES OF A RANGE INDEX**: bounds, their comparison, and what the
  planner proves about them.

  A bound holds an ordered literal or a parameter.  Only literals of one domain
  compare; everything the planner cannot compare it leaves alone.  A range
  selects stored values by `compare`, as the index scan does.

    • `RangeIndexLiteral.partialCmpSameType_eq` — literals compare as their values,
    • `IndexRange.selects_intersect` — the static intersection is the intersection,
    • `IndexRange.selects_of_containsRange`, `IndexRange.selects_of_containsLiteral`,
      `IndexRange.not_selects_of_excludesLiteral` — containment and exclusion are sound,
    • `IndexRange.algebra_sound` — all of it, and the order of a pair of bounds.
-/
import HelixDb.Planner.Literal

namespace HelixDb.Planner

open HelixDb.Lib HelixDb.Property.CanonicalNumber Option
open Property.PropertyValue (rangeKey_of_numeric compare_of_keys compare_eq_some rangeKey_eq_of_eqValue)
open HelixDb.Ast (PropertyValue)
open HelixDb.Property (CanonicalNumber RangeKey rangeKey)
open HelixDb.Property.PropertyValue (keyDomain)

/-! ## §1. Ordered literals. -/

/-- Ordered scalar literal allowed in a range index bound; floats are not NaN. -/
inductive RangeIndexLiteral where
  | i64 (value : Int64)
  | dateTime (value : Int64)
  | f64 (bits : UInt64) (valid : f64IsNan bits = false)
  | f32 (bits : UInt32) (valid : f32IsNan bits = false)
  | string (value : String)

namespace RangeIndexLiteral

/-- The literal as a value. -/
def toPropertyValue : RangeIndexLiteral → PropertyValue
  | .i64 value => .i64 value
  | .dateTime value => .dateTime value
  | .f64 bits _ => .f64 bits
  | .f32 bits _ => .f32 bits
  | .string value => .string value

/-- The literal a value is, if it can bound a range. -/
def tryFromPropertyValue : PropertyValue → Option RangeIndexLiteral
  | .i64 value => some (.i64 value)
  | .dateTime value => some (.dateTime value)
  | .f64 bits => if h : f64IsNan bits = false then some (.f64 bits h) else none
  | .f32 bits => if h : f32IsNan bits = false then some (.f32 bits h) else none
  | .string value => some (.string value)
  | _ => none

end RangeIndexLiteral

/-- A float is a NaN exactly when it has no canonical number. -/
theorem isNan_iff (layout : FloatBits) (bits : Nat) :
    isNan layout.toFloatLayout bits = true ↔ fromFloatBits layout bits = none := by
  unfold isNan fromFloatBits
  rw [Bool.and_eq_true, decide_eq_true_eq]
  by_cases hspecial : layout.Special bits
  · rw [dif_pos hspecial]
    by_cases hfraction : layout.fractionField bits = 0
    · simp [hfraction]
    · simp [hspecial]
  · rw [dif_neg hspecial]
    constructor
    · intro h
      exact absurd h.1 hspecial
    · intro h
      split at h
      · split at h <;> cases h
      · cases h

theorem fromF64_isSome {bits : UInt64} (h : f64IsNan bits = false) :
    (fromF64 bits).isSome = true := by
  rw [isSome_iff_ne_none]
  intro hnone
  simp [f64IsNan, (isNan_iff _ _).mpr hnone] at h

theorem fromF32_isSome {bits : UInt32} (h : f32IsNan bits = false) :
    (fromF32 bits).isSome = true := by
  rw [isSome_iff_ne_none]
  intro hnone
  simp [f32IsNan, (isNan_iff _ _).mpr hnone] at h

/-- The comparison domain of a literal. -/
inductive RangeLiteralRef where
  | number (value : CanonicalNumber)
  | dateTime (value : Int64)
  | string (value : String)

/-- Literals of one kind by their order. -/
def RangeLiteralRef.compare : RangeLiteralRef → RangeLiteralRef → Option Ordering
  | .number left, .number right => some (Ord.compare left right)
  | .dateTime left, .dateTime right => some (cmp left.toInt right.toInt)
  | .string left, .string right => some (cmp (utf8Bytes left) (utf8Bytes right))
  | _, _ => none

variable {v : PropertyValue} {l : RangeIndexLiteral}

namespace RangeIndexLiteral

/-- `as_borrowed`: the floats have a number, since they are not NaN. -/
def asBorrowed : RangeIndexLiteral → RangeLiteralRef
  | .i64 value => .number (.fromI64 value)
  | .f64 bits valid => .number ((CanonicalNumber.fromF64 bits).get (fromF64_isSome valid))
  | .f32 bits valid => .number ((CanonicalNumber.fromF32 bits).get (fromF32_isSome valid))
  | .dateTime value => .dateTime value
  | .string value => .string value

/-- `partial_cmp_same_type`. -/
def partialCmpSameType (left right : RangeIndexLiteral) : Option Ordering :=
  left.asBorrowed.compare right.asBorrowed

/-- The stored value a literal stands for. -/
def dbValue (literal : RangeIndexLiteral) : Property.PropertyValue :=
  literal.toPropertyValue.astToDbValue

/-- What a literal's domain is, read off its value. -/
theorem asBorrowed_cases (l : RangeIndexLiteral) :
    (∃ n, l.asBorrowed = .number n ∧ isNumeric l.toPropertyValue = true ∧
      canonicalNumber l.toPropertyValue = some n) ∨
    (∃ v, l.asBorrowed = .dateTime v ∧ l.toPropertyValue = .dateTime v) ∨
    ∃ v, l.asBorrowed = .string v ∧ l.toPropertyValue = .string v := by
  cases l with
  | i64 value => exact .inl ⟨_, rfl, rfl, rfl⟩
  | dateTime value => exact .inr (.inl ⟨_, rfl, rfl⟩)
  | f64 bits valid | f32 bits valid => exact .inl ⟨_, rfl, rfl, (some_get _).symm⟩
  | string value => exact .inr (.inr ⟨_, rfl, rfl⟩)

/-- A number compares with nothing but a number. -/
theorem propertyValueOrdering_of_mixed {a b : PropertyValue} (h : isNumeric a ≠ isNumeric b) :
    propertyValueOrdering a b = none := by
  cases a <;> cases b <;> first | rfl | exact absurd rfl h

/-- **Literals compare as their values do.** -/
theorem partialCmpSameType_eq (left right : RangeIndexLiteral) :
    left.partialCmpSameType right = left.dbValue.compare right.dbValue := by
  unfold partialCmpSameType dbValue
  rw [← propertyValueOrdering_eq]
  rcases asBorrowed_cases left with ⟨m, hm, hml, hmc⟩ | ⟨v, hv, hvl⟩ | ⟨v, hv, hvl⟩
  · rcases asBorrowed_cases right with ⟨n, hn, hnr, hnc⟩ | ⟨w, hw, hwr⟩ | ⟨w, hw, hwr⟩
    · rw [hm, hn]
      simp [propertyValueOrdering, hml, hnr, hmc, hnc, RangeLiteralRef.compare]
    all_goals
      rw [hm, hw, propertyValueOrdering_of_mixed (by rw [hml, hwr]; exact Bool.false_ne_true.symm)]
      rfl
  -- A date and a string are both compared as what they are.
  all_goals
    rcases asBorrowed_cases right with ⟨n, hn, hnr, hnc⟩ | ⟨w, hw, hwr⟩ | ⟨w, hw, hwr⟩
    · rw [hv, hn, propertyValueOrdering_of_mixed (by rw [hvl, hnr]; exact Bool.false_ne_true)]
      rfl
    all_goals
      rw [hv, hw, hvl, hwr]
      rfl

theorem toPropertyValue_of_tryFrom
    (h : tryFromPropertyValue v = some l) : l.toPropertyValue = v := by
  cases v <;> simp only [tryFromPropertyValue, reduceCtorEq, Option.some.injEq] at h
  · subst h; rfl
  · subst h; rfl
  · split at h
    · cases h; rfl
    · cases h
  · split at h
    · cases h; rfl
    · cases h
  · subst h; rfl

/-- What is no ordered literal compares with nothing. -/
theorem compare_eq_none_of_tryFrom (h : tryFromPropertyValue v = none)
    (x : Property.PropertyValue) : x.compare v.astToDbValue = none := by
  have hkey : rangeKey v.astToDbValue = none := by
    cases v <;> simp only [tryFromPropertyValue, reduceCtorEq, dite_eq_right_iff] at h <;> first
      | rfl
      | skip
    · rename_i bits
      have hnan : f64IsNan bits = true := by
        cases hb : f64IsNan bits with
        | true => rfl
        | false => exact absurd (h hb) (by simp)
      show rangeKey (.f64 bits) = none
      rw [rangeKey_of_numeric rfl]
      show ((fromF64 bits).map _) = none
      rw [fromF64, (isNan_iff _ _).mp hnan]
      rfl
    · rename_i bits
      have hnan : f32IsNan bits = true := by
        cases hb : f32IsNan bits with
        | true => rfl
        | false => exact absurd (h hb) (by simp)
      show rangeKey (.f32 (Ast.f64FromF32 bits)) = none
      rw [rangeKey_of_numeric rfl]
      show ((fromF64 (Ast.f64FromF32 bits)).map _) = none
      rw [Ast.fromF64_f64FromF32, fromF32, (isNan_iff _ _).mp hnan]
      rfl
  rw [Property.PropertyValue.compare_eq, hkey]
  cases rangeKey x <;> rfl

/-- An ordered literal is indexed. -/
theorem exists_rangeKey (l : RangeIndexLiteral) : ∃ key, rangeKey l.dbValue = some key := by
  apply ne_none_iff_exists'.mp
  intro hnone
  have hself := l.partialCmpSameType_eq l
  rw [Property.PropertyValue.compare_eq] at hself
  rcases l.asBorrowed_cases with ⟨n, hn, -⟩ | ⟨v, hv, -⟩ | ⟨v, hv, -⟩ <;>
    simp_all [partialCmpSameType, RangeLiteralRef.compare]

theorem rangeKey_ne_none_of_tryFrom
    (h : tryFromPropertyValue v = some l) : rangeKey v.astToDbValue ≠ none := by
  rw [← toPropertyValue_of_tryFrom h]
  exact ne_none_iff_exists'.mpr l.exists_rangeKey

end RangeIndexLiteral

/-! ## §2. Bounds. -/

/-- Range-index lookup value. -/
inductive RangeIndexValue where
  | literal (value : RangeIndexLiteral)
  | param (name : String)

/-- One index range bound. -/
inductive IndexBound where
  | inclusive (value : RangeIndexValue)
  | exclusive (value : RangeIndexValue)

/-- The derived equality of values: floats as floats, parameters by name. -/
def RangeIndexValue.beq : RangeIndexValue → RangeIndexValue → Bool
  | .literal left, .literal right => PropertyValue.beq left.toPropertyValue right.toPropertyValue
  | .param left, .param right => left == right
  | _, _ => false

namespace IndexBound

/-- The derived equality of bounds. -/
def beq : IndexBound → IndexBound → Bool
  | .inclusive left, .inclusive right => left.beq right
  | .exclusive left, .exclusive right => left.beq right
  | _, _ => false

/-- The value at the bound. -/
def value : IndexBound → RangeIndexValue
  | .inclusive value => value
  | .exclusive value => value

/-- Whether the range has the value itself. -/
def isInclusive : IndexBound → Bool
  | .inclusive _ => true
  | .exclusive _ => false

/-- The literal of a bound, and whether it is inclusive. -/
def literalEndpoint (bound : IndexBound) : Option (RangeIndexLiteral × Bool) :=
  match bound.value with
  | .literal value => some (value, bound.isInclusive)
  | .param _ => none

/-- The two sides differ in the ordering that is beyond the bound. -/
inductive Side where
  | lower
  | upper

/-- The ordering of a value strictly inside a bound of this side. -/
def Side.inside : Side → Ordering
  | .lower => .gt
  | .upper => .lt

/-- `proven_allows_lower_value` and `proven_allows_upper_value`. -/
def provenAllowsValue (side : Side) (self : IndexBound) (value : RangeIndexLiteral) : Bool :=
  match self.literalEndpoint with
  | none => false
  | some (bound, incl) =>
    match value.partialCmpSameType bound with
    | none => false
    | some ordering => ordering == side.inside || (ordering == .eq && incl)

/-- `proven_excludes_lower_value` and `proven_excludes_upper_value`. -/
def provenExcludesValue (side : Side) (self : IndexBound) (value : RangeIndexLiteral) : Bool :=
  match self.literalEndpoint with
  | none => false
  | some (bound, incl) =>
    match value.partialCmpSameType bound with
    | none => false
    | some ordering => ordering == side.inside.swap || (ordering == .eq && !incl)

/-- `proven_allows_lower_bound` and `proven_allows_upper_bound`. -/
def provenAllowsBound (side : Side) (self other : IndexBound) : Bool :=
  match self.literalEndpoint, other.literalEndpoint with
  | some (bound, incl), some (otherBound, otherIncl) =>
    match otherBound.partialCmpSameType bound with
    | none => false
    | some ordering =>
      ordering == side.inside || (ordering == .eq && (incl || !otherIncl))
  | _, _ => false

/-- `tighter_lower_bound` and `tighter_upper_bound`. -/
def tighterBound (side : Side) (self other : IndexBound) : Option IndexBound :=
  if self.beq other then some self
  else
    match self.literalEndpoint, other.literalEndpoint with
    | some (bound, incl), some (otherBound, otherIncl) =>
      match bound.partialCmpSameType otherBound with
      | none => none
      | some ordering =>
        if ordering = .eq then
          some (if incl && !otherIncl then other else self)
        else if ordering = side.inside then some self
        else some other
    | _, _ => none

end IndexBound

/-- Static literal bounds are comparable and not inverted. -/
def boundsOrdered (lower upper : IndexBound) : Bool :=
  match lower.value, upper.value with
  | .literal lower, .literal upper =>
    (lower.partialCmpSameType upper).any fun ordering => ordering != .gt
  | _, _ => true

/-- Pair of index bounds whose static literal values are not inverted. -/
structure IndexBetweenRange where
  lower : IndexBound
  upper : IndexBound
  ordered : boundsOrdered lower upper = true

/-- Bounds in the wrong order are refused. -/
def IndexBetweenRange.new (lower upper : IndexBound) : Option IndexBetweenRange :=
  if h : boundsOrdered lower upper = true then some ⟨lower, upper, h⟩ else none

/-- Index range bounds. -/
inductive IndexRange where
  | all
  | lower (lower : IndexBound)
  | upper (upper : IndexBound)
  | between (bounds : IndexBetweenRange)

namespace IndexRange

/-- The derived equality of ranges. -/
def beq : IndexRange → IndexRange → Bool
  | .all, .all => true
  | .lower left, .lower right => left.beq right
  | .upper left, .upper right => left.beq right
  | .between left, .between right => left.lower.beq right.lower && left.upper.beq right.upper
  | _, _ => false

/-- The lower bound, if there is one. -/
def lowerBound : IndexRange → Option IndexBound
  | .lower lo => some lo
  | .between bounds => some bounds.lower
  | .all | .upper _ => none

/-- The upper bound, if there is one. -/
def upperBound : IndexRange → Option IndexBound
  | .upper hi => some hi
  | .between bounds => some bounds.upper
  | .all | .lower _ => none

/-- The tighter of two optional bounds; `none` when it cannot be proven. -/
def tighterOf (side : IndexBound.Side) :
    Option IndexBound → Option IndexBound → Option (Option IndexBound)
  | some left, some right => (left.tighterBound side right).map some
  | some bound, none | none, some bound => some (some bound)
  | none, none => some none

/-- The static intersection, when the tighter bounds can be proven. -/
def intersect (self other : IndexRange) : Option IndexRange :=
  if self.beq other then some self
  else
    match self, other with
    | .all, range | range, .all => some range
    | self, other => do
      let lo ← tighterOf .lower self.lowerBound other.lowerBound
      let hi ← tighterOf .upper self.upperBound other.upperBound
      match lo, hi with
      | some lo, some hi => (IndexBetweenRange.new lo hi).map .between
      | some lo, none => some (.lower lo)
      | none, some hi => some (.upper hi)
      | none, none => none

/-- Whether `other` is known to lie in the range. -/
def containsRange (self other : IndexRange) : Bool :=
  self.beq other ||
    (self.lowerBound.all fun lo =>
        other.lowerBound.any fun otherLo => lo.provenAllowsBound .lower otherLo) &&
      self.upperBound.all fun hi =>
        other.upperBound.any fun otherHi => hi.provenAllowsBound .upper otherHi

/-- `contains_secondary_literal`, of the literal's value. -/
def containsLiteral (self : IndexRange) (value : PropertyValue) : Bool :=
  match RangeIndexLiteral.tryFromPropertyValue value with
  | none => false
  | some value =>
    match self with
    | .all => true
    | .lower lo => lo.provenAllowsValue .lower value
    | .upper hi => hi.provenAllowsValue .upper value
    | .between bounds =>
      bounds.lower.provenAllowsValue .lower value && bounds.upper.provenAllowsValue .upper value

/-- `excludes_secondary_literal`, of the literal's value. -/
def excludesLiteral (self : IndexRange) (value : PropertyValue) : Bool :=
  match RangeIndexLiteral.tryFromPropertyValue value with
  | none => false
  | some value =>
    match self with
    | .all => false
    | .lower lo => lo.provenExcludesValue .lower value
    | .upper hi => hi.provenExcludesValue .upper value
    | .between bounds =>
      bounds.lower.provenExcludesValue .lower value ||
        bounds.upper.provenExcludesValue .upper value

end IndexRange

/-! ## §3. What a range selects. -/

section Selection

variable (params : String → Property.PropertyValue)

/-- The value at execution. -/
def RangeIndexValue.resolve : RangeIndexValue → Property.PropertyValue
  | .literal value => value.dbValue
  | .param name => params name

/-- One side of `secondary_range_query_matches`. -/
def IndexBound.admits (side : IndexBound.Side) (bound : IndexBound)
    (value : Property.PropertyValue) : Bool :=
  (value.compare (bound.value.resolve params)).any fun ordering =>
    ordering == side.inside || (bound.isInclusive && ordering == .eq)

/-- The stored values a range scan selects; a full scan has every indexed value. -/
def IndexRange.selects (range : IndexRange) (value : Property.PropertyValue) : Bool :=
  match range with
  | .all => (rangeKey value).isSome
  | .lower lo => lo.admits params .lower value
  | .upper hi => hi.admits params .upper value
  | .between bounds => bounds.lower.admits params .lower value &&
      bounds.upper.admits params .upper value

end Selection

/-! ### Positions -/

variable {a b c : IndexBound}

namespace IndexBound

/-- The key of a literal endpoint, and whether the bound includes it. -/
def position (bound : IndexBound) : Option (RangeKey × Bool) :=
  bound.literalEndpoint.bind fun endpoint =>
    (rangeKey endpoint.1.dbValue).map fun key => (key, endpoint.2)

/-- A bound at position `p` admits everything a bound at position `q` does. -/
def Covers (side : Side) (p q : RangeKey × Bool) : Prop :=
  keyDomain q.1 = keyDomain p.1 ∧
    (cmp q.1 p.1 = side.inside ∨ cmp q.1 p.1 = .eq ∧ (p.2 = true ∨ q.2 = false))

variable {params : String → Property.PropertyValue} {side : Side} {x : Property.PropertyValue}
  {a b bound : IndexBound} {p q : RangeKey × Bool} {l m : RangeIndexLiteral}

/-- Steps to one side compose: if `l` is on the inside of `m` or at it, what is
inside `l` is inside `m`. -/
theorem Side.trans {k l m : RangeKey} (hkl : cmp k l = side.inside ∨ cmp k l = .eq)
    (hlm : cmp l m = side.inside) : cmp k m = side.inside := by
  cases side with
  | lower =>
    simp only [Side.inside, cmp_eq_gt_iff, cmp_eq_eq_iff] at hkl hlm ⊢
    rcases hkl with hkl | rfl
    · exact hlm.trans hkl
    · exact hlm
  | upper =>
    simp only [Side.inside, cmp_eq_lt_iff, cmp_eq_eq_iff] at hkl hlm ⊢
    rcases hkl with hkl | rfl
    · exact hkl.trans hlm
    · exact hlm

/-- Keys of one domain are on one side of each other, the other, or equal. -/
theorem Side.inside_swap {k l : RangeKey} (hne : cmp k l ≠ .eq) (hside : cmp k l ≠ side.inside) :
    cmp l k = side.inside := by
  cases side with
  | lower =>
    simp only [Side.inside, ne_eq, cmp_eq_gt_iff, cmp_eq_eq_iff] at hne hside ⊢
    exact lt_of_le_of_ne (not_lt.mp hside) hne
  | upper =>
    simp only [Side.inside, ne_eq, cmp_eq_lt_iff, cmp_eq_eq_iff] at hne hside ⊢
    exact lt_of_le_of_ne (not_lt.mp hside) (Ne.symm hne)

theorem Covers.trans {r : RangeKey × Bool} (hpq : Covers side p q) (hqr : Covers side q r) :
    Covers side p r := by
  obtain ⟨hdomain, hpq⟩ := hpq
  obtain ⟨hdomain', hqr⟩ := hqr
  refine ⟨hdomain'.trans hdomain, ?_⟩
  rcases hpq with hpq | ⟨hpq, hincl⟩
  · exact .inl (Side.trans (hqr.imp_right fun h => h.1) hpq)
  · rw [cmp_eq_eq_iff] at hpq
    rw [← hpq]
    rcases hqr with hqr | ⟨hqr, hincl'⟩
    · exact .inl hqr
    · refine .inr ⟨hqr, ?_⟩
      rcases hincl with hincl | hincl
      · exact .inl hincl
      · exact .inr (hincl'.resolve_left (by rw [hincl]; exact Bool.false_ne_true))

theorem exists_position {endpoint : RangeIndexLiteral × Bool}
    (h : bound.literalEndpoint = some endpoint) :
    ∃ k, rangeKey endpoint.1.dbValue = some k ∧ bound.position = some (k, endpoint.2) := by
  obtain ⟨k, hk⟩ := endpoint.1.exists_rangeKey
  exact ⟨k, hk, by simp [position, h, hk]⟩

/-- How the two literals compare decides the test. -/
theorem covers_iff_ordering {k n : RangeKey} (hl : rangeKey l.dbValue = some k)
    (hm : rangeKey m.dbValue = some n) (i j : Bool) :
    Covers side (n, i) (k, j) ↔ (l.partialCmpSameType m).any (fun ordering =>
      ordering == side.inside || (ordering == .eq && (i || !j))) = true := by
  rw [RangeIndexLiteral.partialCmpSameType_eq]
  constructor
  · rintro ⟨hdomain, h⟩
    rw [compare_of_keys hl hm hdomain]
    simpa using h
  · intro h
    obtain ⟨o, ho, h⟩ := (any_eq_true ..).mp h
    obtain ⟨k', n', hk', hn', hdomain, hcmp⟩ := compare_eq_some ho
    cases hl.symm.trans hk'
    cases hm.symm.trans hn'
    subst hcmp
    exact ⟨hdomain, by simpa using h⟩

theorem provenAllowsBound_iff : a.provenAllowsBound side b = true ↔
    ∃ p q, a.position = some p ∧ b.position = some q ∧ Covers side p q := by
  unfold provenAllowsBound
  cases ha : a.literalEndpoint with
  | none => simp [position, ha]
  | some endpoint =>
    cases hb : b.literalEndpoint with
    | none => simp [position, hb]
    | some endpoint' =>
      obtain ⟨n, hn, hp⟩ := exists_position ha
      obtain ⟨k, hk, hq⟩ := exists_position hb
      simp only [hp, hq, some.injEq, exists_and_left, exists_eq_left']
      rw [covers_iff_ordering hk hn]
      cases endpoint'.1.partialCmpSameType endpoint.1 <;> rfl

/-- A literal value is a closed position. -/
theorem provenAllowsValue_iff : bound.provenAllowsValue side l = true ↔
    ∃ p k, bound.position = some p ∧ rangeKey l.dbValue = some k ∧ Covers side p (k, true) := by
  unfold provenAllowsValue
  cases hbound : bound.literalEndpoint with
  | none => simp [position, hbound]
  | some endpoint =>
    obtain ⟨n, hn, hp⟩ := exists_position hbound
    obtain ⟨k, hk⟩ := l.exists_rangeKey
    simp only [hp, hk, some.injEq, exists_and_left, exists_eq_left']
    rw [covers_iff_ordering hk hn]
    cases l.partialCmpSameType endpoint.1 <;> simp

/-- An excluded literal is one the comparison puts beyond the bound. -/
theorem not_covers_of_provenExcludesValue (h : bound.provenExcludesValue side l = true) :
    ∃ p k, bound.position = some p ∧ rangeKey l.dbValue = some k ∧
      ¬Covers side p (k, true) := by
  unfold provenExcludesValue at h
  cases hbound : bound.literalEndpoint with
  | none => simp [hbound] at h
  | some endpoint =>
    obtain ⟨n, hn, hp⟩ := exists_position hbound
    obtain ⟨k, hk⟩ := l.exists_rangeKey
    refine ⟨_, k, hp, hk, ?_⟩
    rw [covers_iff_ordering hk hn]
    cases hcmp : l.partialCmpSameType endpoint.1 with
    | none => simp
    | some o =>
      cases side <;> cases o <;> simp_all [Side.inside]

/-! ### What a bound admits -/

/-- A value admitted by a bound has a key on the bound's side of it. -/
theorem admits_iff : bound.admits params side x = true ↔
    ∃ k l, rangeKey x = some k ∧ rangeKey (bound.value.resolve params) = some l ∧
      Covers side (l, bound.isInclusive) (k, true) := by
  unfold admits
  rw [any_eq_true]
  constructor
  · rintro ⟨o, ho, h⟩
    obtain ⟨k, l, hk, hl, hdomain, rfl⟩ := compare_eq_some ho
    exact ⟨k, l, hk, hl, hdomain, by simpa [and_comm] using h⟩
  · rintro ⟨k, l, hk, hl, hdomain, h⟩
    exact ⟨_, compare_of_keys hk hl hdomain, by simpa [and_comm] using h⟩

/-- A literal bound admits the values whose key its position covers. -/
theorem admits_iff_of_position (h : bound.position = some p) :
    bound.admits params side x = true ↔ ∃ k, rangeKey x = some k ∧ Covers side p (k, true) := by
  obtain ⟨⟨l, incl⟩, hl, h⟩ := bind_eq_some_iff.mp h
  obtain ⟨key, hkey, rfl⟩ := map_eq_some_iff.mp h
  have hparts : bound.value.resolve params = l.dbValue ∧ bound.isInclusive = incl := by
    unfold literalEndpoint at hl
    cases hvalue : bound.value <;> rw [hvalue] at hl <;> cases hl
    exact ⟨rfl, rfl⟩
  rw [admits_iff, hparts.1, hparts.2, hkey]
  simp

theorem admits_of_covers (ha : a.position = some p) (hb : b.position = some q)
    (h : Covers side p q) (hx : b.admits params side x = true) :
    a.admits params side x = true := by
  obtain ⟨k, hk, hqk⟩ := (admits_iff_of_position hb).mp hx
  exact (admits_iff_of_position ha).mpr ⟨k, hk, h.trans hqk⟩

theorem rangeKey_of_admits (h : bound.admits params side x = true) :
    (rangeKey x).isSome = true := by
  obtain ⟨k, _, hk, _⟩ := admits_iff.mp h
  rw [hk]
  rfl

end IndexBound

variable {range : IndexRange}

section Selection

variable {params : String → Property.PropertyValue} {side : IndexBound.Side}
  {x : Property.PropertyValue}

/-- Whatever a range selects is indexed. -/
theorem IndexRange.rangeKey_of_selects
    (h : range.selects params x = true) : (rangeKey x).isSome = true := by
  cases range with
  | all => exact h
  | lower lo | upper hi => exact IndexBound.rangeKey_of_admits h
  | between bounds =>
    rw [IndexRange.selects, Bool.and_eq_true] at h
    exact IndexBound.rangeKey_of_admits h.1

/-! ### Equal bounds -/

theorem RangeIndexValue.rangeKey_of_beq {v w : RangeIndexValue} (h : v.beq w = true) :
    rangeKey (v.resolve params) = rangeKey (w.resolve params) := by
  cases v with
  | literal a =>
    cases w with
    | literal b =>
      have hequal := propertyValuesEqual_of_beq h
      rw [propertyValuesEqual_eq] at hequal
      exact rangeKey_eq_of_eqValue hequal
    | param b => cases h
  | param a =>
    cases w with
    | literal b => cases h
    | param b =>
      have hname : a = b := beq_iff_eq.mp h
      rw [hname]

theorem IndexBound.isInclusive_of_beq (h : a.beq b = true) :
    a.isInclusive = b.isInclusive ∧ a.value.beq b.value = true := by
  cases a <;> cases b <;> first | exact ⟨rfl, h⟩ | cases h

theorem IndexBound.admits_of_beq (h : a.beq b = true) :
    a.admits params side x = b.admits params side x := by
  obtain ⟨hincl, hvalue⟩ := isInclusive_of_beq h
  rw [Bool.eq_iff_iff, admits_iff, admits_iff, hincl, RangeIndexValue.rangeKey_of_beq hvalue]

theorem IndexRange.selects_of_beq {a b : IndexRange}
    (h : a.beq b = true) : a.selects params x = b.selects params x := by
  cases a <;> cases b <;> first
    | rfl
    | exact IndexBound.admits_of_beq h
    | cases h
    | skip
  rw [IndexRange.beq, Bool.and_eq_true] at h
  rw [IndexRange.selects, IndexRange.selects, IndexBound.admits_of_beq h.1,
    IndexBound.admits_of_beq h.2]

/-! ### Tighter bounds and intersections -/

/-- The tighter of two different bounds is the one whose position the other covers. -/
theorem IndexBound.tighterBound_cases (h : a.tighterBound side b = some c) :
    a.beq b = true ∧ c = a ∨ ∃ p q, a.position = some p ∧ b.position = some q ∧
      (c = a ∧ Covers side q p ∨ c = b ∧ Covers side p q) := by
  unfold tighterBound at h
  by_cases hbeq : a.beq b = true
  · rw [if_pos hbeq] at h
    exact .inl ⟨hbeq, (Option.some.inj h).symm⟩
  rw [if_neg hbeq] at h
  cases ha : a.literalEndpoint with
  | none => simp [ha] at h
  | some endpoint =>
    cases hb : b.literalEndpoint with
    | none => simp [hb] at h
    | some endpoint' =>
      obtain ⟨k, hk, hp⟩ := exists_position ha
      obtain ⟨n, hn, hq⟩ := exists_position hb
      refine .inr ⟨_, _, hp, hq, ?_⟩
      simp only [ha, hb] at h
      split at h
      case h_1 => cases h
      case h_2 o hcmp =>
        rw [RangeIndexLiteral.partialCmpSameType_eq] at hcmp
        obtain ⟨k', n', hk', hn', hdomain, rfl⟩ := compare_eq_some hcmp
        cases hk.symm.trans hk'
        cases hn.symm.trans hn'
        split_ifs at h with heq hexcl hside <;> cases h
        · -- One endpoint: the exclusive bound is the tighter one.
          have hincl : endpoint.2 = true := (Bool.and_eq_true_iff.mp hexcl).1
          refine .inr ⟨rfl, hdomain.symm, .inr ⟨?_, .inl hincl⟩⟩
          rw [cmp_eq_eq_iff] at heq ⊢
          exact heq.symm
        · refine .inl ⟨rfl, hdomain, .inr ⟨heq, ?_⟩⟩
          cases hincl : endpoint.2 <;> simp_all
        · exact .inl ⟨rfl, hdomain, .inl hside⟩
        · exact .inr ⟨rfl, hdomain.symm, .inl (Side.inside_swap heq hside)⟩

/-- **The tighter bound admits what both do.** -/
theorem IndexBound.admits_tighterBound
    (h : a.tighterBound side b = some c) (x : Property.PropertyValue) :
    c.admits params side x = (a.admits params side x && b.admits params side x) := by
  rcases tighterBound_cases h with ⟨hbeq, rfl⟩ | ⟨p, q, hp, hq, ⟨rfl, hcovers⟩ | ⟨rfl, hcovers⟩⟩
  · rw [← admits_of_beq hbeq, Bool.and_self]
  · rw [Bool.eq_iff_iff, Bool.and_eq_true, iff_self_and]
    exact admits_of_covers hq hp hcovers
  · rw [Bool.eq_iff_iff, Bool.and_eq_true, iff_and_self]
    exact admits_of_covers hp hq hcovers

/-- A range is its two optional bounds, except that a full one wants a key. -/
theorem IndexRange.selects_eq (range : IndexRange) (x : Property.PropertyValue) :
    range.selects params x = ((rangeKey x).isSome &&
      ((range.lowerBound.all fun bound => bound.admits params .lower x) &&
        range.upperBound.all fun bound => bound.admits params .upper x)) := by
  cases hkey : (rangeKey x).isSome with
  | true => cases range <;> simp [IndexRange.selects, IndexRange.lowerBound, IndexRange.upperBound, hkey]
  | false =>
    cases hselects : range.selects params x with
    | false => rfl
    | true =>
      simp [IndexRange.rangeKey_of_selects hselects] at hkey

/-- The tighter of two optional bounds admits what both do. -/
theorem IndexRange.admits_tighterOf {a b c : Option IndexBound}
    (h : IndexRange.tighterOf side a b = some c) (x : Property.PropertyValue) :
    (c.all fun bound => bound.admits params side x) =
      ((a.all fun bound => bound.admits params side x) &&
        b.all fun bound => bound.admits params side x) := by
  cases a with
  | none => cases b <;> cases h <;> simp
  | some a =>
    cases b with
    | none =>
      cases h
      simp
    | some b =>
      obtain ⟨d, hd, rfl⟩ := map_eq_some_iff.mp h
      exact IndexBound.admits_tighterBound hd x

/-- **The static intersection selects what both ranges do.** -/
theorem IndexRange.selects_intersect {a b c : IndexRange} (h : a.intersect b = some c)
    (x : Property.PropertyValue) :
    c.selects params x = (a.selects params x && b.selects params x) := by
  unfold IndexRange.intersect at h
  split_ifs at h with hbeq
  · cases h
    rw [← IndexRange.selects_of_beq hbeq, Bool.and_self]
  · have hbounds : ∀ {a b : IndexRange} {lo hi : Option IndexBound},
        IndexRange.tighterOf .lower a.lowerBound b.lowerBound = some lo →
        IndexRange.tighterOf .upper a.upperBound b.upperBound = some hi →
        c.lowerBound = lo → c.upperBound = hi →
        c.selects params x = (a.selects params x && b.selects params x) := by
      intro a b lo hi hlo hhi hc hc'
      rw [IndexRange.selects_eq, IndexRange.selects_eq a, IndexRange.selects_eq b, hc, hc',
        IndexRange.admits_tighterOf hlo, IndexRange.admits_tighterOf hhi]
      cases (rangeKey x).isSome <;>
        cases a.lowerBound.all (fun bound => bound.admits params .lower x) <;>
        cases b.lowerBound.all (fun bound => bound.admits params .lower x) <;> simp
    have hall : ∀ r : IndexRange, r.selects params x
        = (IndexRange.all.selects params x && r.selects params x) := by
      intro r
      cases hr : r.selects params x with
      | false => rw [Bool.and_false]
      | true =>
        rw [show IndexRange.all.selects params x = true from IndexRange.rangeKey_of_selects hr]
        rfl
    -- Two bounded ranges: the bounds are intersected side by side.
    have hmain : ∀ {a b : IndexRange}, (do
        let lo ← IndexRange.tighterOf .lower a.lowerBound b.lowerBound
        let hi ← IndexRange.tighterOf .upper a.upperBound b.upperBound
        match lo, hi with
        | some lo, some hi => (IndexBetweenRange.new lo hi).map IndexRange.between
        | some lo, none => some (.lower lo)
        | none, some hi => some (.upper hi)
        | none, none => none) = some c →
        c.selects params x = (a.selects params x && b.selects params x) := by
      intro a b h
      simp only [bind_eq_bind, bind_eq_some_iff] at h
      obtain ⟨lo, hlo, hi, hhi, h⟩ := h
      cases lo with
      | none =>
        cases hi with
        | none => cases h
        | some hi =>
          cases h
          exact hbounds hlo hhi rfl rfl
      | some lo =>
        cases hi with
        | none =>
          cases h
          exact hbounds hlo hhi rfl rfl
        | some hi =>
          obtain ⟨bounds, hnew, rfl⟩ := map_eq_some_iff.mp h
          unfold IndexBetweenRange.new at hnew
          split at hnew
          · cases hnew
            exact hbounds hlo hhi rfl rfl
          · cases hnew
    cases a <;> cases b <;> first
      | (cases h; exact hall _)
      | (cases h; rw [Bool.and_comm]; exact hall _)
      | exact hmain h

/-- **A range proven wider selects whatever the narrower one does.** -/
theorem IndexRange.selects_of_containsRange {a b : IndexRange} (h : a.containsRange b = true)
    (hx : b.selects params x = true) : a.selects params x = true := by
  unfold IndexRange.containsRange at h
  rw [Bool.or_eq_true, Bool.and_eq_true] at h
  rcases h with hbeq | ⟨hlo, hhi⟩
  · rwa [IndexRange.selects_of_beq hbeq]
  · have hkey := IndexRange.rangeKey_of_selects hx
    rw [IndexRange.selects_eq, Bool.and_eq_true, Bool.and_eq_true] at hx
    have hside : ∀ {side : IndexBound.Side} {c d : Option IndexBound},
        (c.all fun lo => d.any fun otherLo => lo.provenAllowsBound side otherLo) = true →
        (d.all fun bound => bound.admits params side x) = true →
        (c.all fun bound => bound.admits params side x) = true := by
      intro side c d hc hd
      cases c with
      | none => rfl
      | some c =>
        cases d with
        | none => cases hc
        | some d =>
          obtain ⟨p, q, hp, hq, hcovers⟩ := IndexBound.provenAllowsBound_iff.mp hc
          exact IndexBound.admits_of_covers hp hq hcovers hd
    rw [IndexRange.selects_eq, hkey, hside hlo hx.2.1, hside hhi hx.2.2]
    rfl

/-! ### Literals in ranges -/

section Literals

variable {bound : IndexBound} {v : PropertyValue} {l : RangeIndexLiteral}

/-- A value equal to an ordered literal has its key. -/
theorem RangeIndexLiteral.rangeKey_eq_of_tryFrom (hl : tryFromPropertyValue v = some l)
    (hx : x.eqValue v.astToDbValue = true) : rangeKey x = rangeKey l.dbValue := by
  rw [rangeKey_eq_of_eqValue hx, dbValue, toPropertyValue_of_tryFrom hl]

theorem IndexBound.admits_of_provenAllowsValue
    (hl : RangeIndexLiteral.tryFromPropertyValue v = some l)
    (hx : x.eqValue v.astToDbValue = true) (h : bound.provenAllowsValue side l = true) :
    bound.admits params side x = true := by
  obtain ⟨p, k, hp, hk, hcovers⟩ := provenAllowsValue_iff.mp h
  have hkey := (RangeIndexLiteral.rangeKey_eq_of_tryFrom hl hx).trans hk
  exact (admits_iff_of_position hp).mpr ⟨k, hkey, hcovers⟩

theorem IndexBound.not_admits_of_provenExcludesValue
    (hl : RangeIndexLiteral.tryFromPropertyValue v = some l)
    (hx : x.eqValue v.astToDbValue = true) (h : bound.provenExcludesValue side l = true) :
    bound.admits params side x = false := by
  obtain ⟨p, k, hp, hk, hbeyond⟩ := not_covers_of_provenExcludesValue h
  have hkey := (RangeIndexLiteral.rangeKey_eq_of_tryFrom hl hx).trans hk
  rw [Bool.eq_false_iff, ne_eq, admits_iff_of_position hp, hkey]
  simpa using hbeyond

end Literals

/-- **A range proven to contain a literal selects every value equal to it.** -/
theorem IndexRange.selects_of_containsLiteral (h : range.containsLiteral v = true)
    (hx : x.eqValue v.astToDbValue = true) : range.selects params x = true := by
  unfold IndexRange.containsLiteral at h
  cases hl : RangeIndexLiteral.tryFromPropertyValue v with
  | none => simp [hl] at h
  | some l =>
    rw [hl] at h
    cases range with
    | all =>
      show (rangeKey x).isSome = true
      rw [rangeKey_eq_of_eqValue hx, isSome_iff_ne_none]
      exact RangeIndexLiteral.rangeKey_ne_none_of_tryFrom hl
    | lower lo | upper hi => exact IndexBound.admits_of_provenAllowsValue hl hx h
    | between bounds =>
      simp only [Bool.and_eq_true] at h
      rw [IndexRange.selects, IndexBound.admits_of_provenAllowsValue hl hx h.1,
        IndexBound.admits_of_provenAllowsValue hl hx h.2]
      rfl

/-- **A range proven to exclude a literal selects no value equal to it.** -/
theorem IndexRange.not_selects_of_excludesLiteral (h : range.excludesLiteral v = true)
    (hx : x.eqValue v.astToDbValue = true) : range.selects params x = false := by
  unfold IndexRange.excludesLiteral at h
  cases hl : RangeIndexLiteral.tryFromPropertyValue v with
  | none => simp [hl] at h
  | some l =>
    rw [hl] at h
    cases range with
    | all => cases h
    | lower lo | upper hi => exact IndexBound.not_admits_of_provenExcludesValue hl hx h
    | between bounds =>
      simp only [Bool.or_eq_true] at h
      rw [IndexRange.selects]
      rcases h with hlo | hhi
      · rw [IndexBound.not_admits_of_provenExcludesValue hl hx hlo, Bool.false_and]
      · rw [IndexBound.not_admits_of_provenExcludesValue hl hx hhi, Bool.and_false]

end Selection

/-! ## §4. The algebra of ranges. -/

/-- An ordered literal equals itself: it is no NaN. -/
theorem RangeIndexLiteral.eqValue_self
    (h : tryFromPropertyValue v = some l) : v.astToDbValue.eqValue v.astToDbValue = true := by
  rw [← toPropertyValue_of_tryFrom h, ← propertyValuesEqual_eq]
  rcases l.asBorrowed_cases with ⟨n, -, hnum, hn⟩ | ⟨v, -, hv⟩ | ⟨v, -, hv⟩
  · rw [propertyValuesEqual_of_numeric hnum hnum]
    exact (Property.sameNumber_iff _ _).mpr ⟨n, hn, hn⟩
  all_goals
    rw [hv]
    exact beq_self_eq_true v

/-- The literal a range decides about is one it can compare. -/
theorem IndexRange.eqValue_of_decides
    (h : range.containsLiteral v = true ∨ range.excludesLiteral v = true) :
    v.astToDbValue.eqValue v.astToDbValue = true := by
  cases hl : RangeIndexLiteral.tryFromPropertyValue v with
  | none => simp [IndexRange.containsLiteral, IndexRange.excludesLiteral, hl] at h
  | some l => exact RangeIndexLiteral.eqValue_self hl

/-- **The planner's range algebra is sound** for the order of the stored range keys: a value lies
    in a range when its key is on the right side of each bound's. -/
theorem IndexRange.algebra_sound (params : String → Property.PropertyValue) (r s : IndexRange)
    (v : PropertyValue) :
    (∀ side (bound : IndexBound) x, bound.admits params side x = true ↔
      ∃ k l, rangeKey x = some k ∧ rangeKey (bound.value.resolve params) = some l ∧
        IndexBound.Covers side (l, bound.isInclusive) (k, true)) ∧
    (∀ t, r.intersect s = some t → ∀ x,
      t.selects params x = true ↔ r.selects params x = true ∧ s.selects params x = true) ∧
    (r.containsRange s = true → ∀ x, s.selects params x = true → r.selects params x = true) ∧
    (r.containsLiteral v = true → r.selects params v.astToDbValue = true) ∧
    (r.excludesLiteral v = true → r.selects params v.astToDbValue = false) ∧
    ¬(r.containsLiteral v = true ∧ r.excludesLiteral v = true) ∧
    ∀ lower upper bounds, IndexBetweenRange.new lower upper = some bounds →
      ∀ l u, lower.value = .literal l → upper.value = .literal u →
        ∃ k n, rangeKey l.dbValue = some k ∧ rangeKey u.dbValue = some n ∧
          k ≤ n := by
  have hcontains (h : r.containsLiteral v = true) : r.selects params v.astToDbValue = true :=
    IndexRange.selects_of_containsLiteral h (IndexRange.eqValue_of_decides (.inl h))
  have hexcludes (h : r.excludesLiteral v = true) : r.selects params v.astToDbValue = false :=
    IndexRange.not_selects_of_excludesLiteral h (IndexRange.eqValue_of_decides (.inr h))
  refine ⟨fun side bound x => IndexBound.admits_iff, ?_, ?_, hcontains, hexcludes, ?_, ?_⟩
  · intro t ht x
    rw [IndexRange.selects_intersect ht, Bool.and_eq_true]
  · intro h x
    exact IndexRange.selects_of_containsRange h
  · rintro ⟨hin, hout⟩
    simpa [hcontains hin] using hexcludes hout
  · intro lower upper bounds h l u hl hu
    rw [IndexBetweenRange.new] at h
    split at h
    · rename_i hordered
      rw [boundsOrdered, hl, hu, any_eq_true] at hordered
      obtain ⟨o, ho, hne⟩ := hordered
      rw [RangeIndexLiteral.partialCmpSameType_eq] at ho
      obtain ⟨k, n, hk, hn, -, rfl⟩ := compare_eq_some ho
      refine ⟨k, n, hk, hn, not_lt.mp ?_⟩
      simpa using hne
    · cases h

/-- The range of the integers from `least` on. -/
def IndexRange.atLeast (least : Int64) : IndexRange := .lower (.inclusive (.literal (.i64 least)))

/-- From 1 on and from 3 on: the second is their intersection and lies in the first, which has 5
    and does not have 0. -/
theorem IndexRange.algebra_sound_atLeast :
    let params (_ : String) : Property.PropertyValue := .null
    (∀ x, (atLeast 3).selects params x = true ↔
      (atLeast 1).selects params x = true ∧ (atLeast 3).selects params x = true) ∧
    (∀ x, (atLeast 3).selects params x = true → (atLeast 1).selects params x = true) ∧
    (atLeast 1).selects params (PropertyValue.i64 5).astToDbValue = true ∧
    (atLeast 1).selects params (PropertyValue.i64 0).astToDbValue = false := by
  intro params
  have h := algebra_sound params (atLeast 1) (atLeast 3)
  exact ⟨(h (.i64 5)).2.1 _ (by rfl), (h (.i64 5)).2.2.1 (by decide),
    (h (.i64 5)).2.2.2.1 (by decide), (h (.i64 0)).2.2.2.2.1 (by decide)⟩

end HelixDb.Planner
