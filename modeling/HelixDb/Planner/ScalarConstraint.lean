/-
  HelixDb.Planner.ScalarConstraint

  **CONSTRAINTS ON ONE PROPERTY.**

  Along a conjunction the planner collects, for each property, the literals it
  equals and differs from, its bounds, whether it is null, and the finite set it
  lies in.  Adding a constraint answers a contradiction or the larger state.
  Here the state is read as a set of stored values: while a value meets every
  constraint added, no addition contradicts.

    • `ScalarPropertyConstraint.satisfies_of_admits` — a literal equal to an
      admitted value passes every check;
    • `ScalarUpdate.apply_admits` — an update that holds of an admitted value
      succeeds and keeps it admitted.
-/
import HelixDb.Planner.IndexRange
import HelixDb.Planner.LiteralSet

namespace HelixDb.Planner

open HelixDb.Lib List
open Property.PropertyValue (compare_congr compare_eq_some compare_of_keys eqValue_null_iff eqValue_symm)
open HelixDb.Ast (PropertyValue)
open IndexBound (Side)

/-! ## §1. Bounds. -/

/-- A literal that bounds a range. -/
structure LiteralBound where
  value : PropertyValue
  inclusive : Bool
  valid : (RangeIndexLiteral.tryFromPropertyValue value).isSome = true

/-- A bound needs a literal that can be ordered. -/
def LiteralBound.new (value : PropertyValue) (inclusive : Bool) : Option LiteralBound :=
  if h : (RangeIndexLiteral.tryFromPropertyValue value).isSome = true then
    some ⟨value, inclusive, h⟩
  else none

/-- `lower_bound_allows_value` and `upper_bound_allows_value`. -/
def boundAllowsValue (side : Side) (bound : LiteralBound) (value : PropertyValue) : Bool :=
  match propertyValueOrdering value bound.value with
  | some ordering => ordering == side.inside || (ordering == .eq && bound.inclusive)
  | none => true

/-- Bounds with nothing between them. -/
def rangeBoundsAreDisjoint (lower upper : LiteralBound) : Bool :=
  match propertyValueOrdering lower.value upper.value with
  | some .gt => true
  | some .eq => !lower.inclusive || !upper.inclusive
  | some .lt | none => false

/-- Whether the property has a value. -/
inductive NullabilityConstraint where
  | nullOrMissing
  | nonNull
deriving DecidableEq

/-- Whether the value is `null` as it should be. -/
def nullabilityAllowsValue (nullability : NullabilityConstraint) (value : PropertyValue) : Bool :=
  match nullability with
  | .nullOrMissing => PropertyValue.beq value .null
  | .nonNull => !PropertyValue.beq value .null

/-! ## §2. The state of one property. -/

/-- What a conjunction says of one property. -/
structure ScalarPropertyConstraint where
  equality : Option PropertyValue
  inequalities : List PropertyValue
  lowerBounds : List LiteralBound
  upperBounds : List LiteralBound
  nullability : Option NullabilityConstraint
  allowedValues : Option (List PropertyValue)

namespace ScalarPropertyConstraint

/-- `ScalarPropertyConstraint::default`. -/
def unconstrained : ScalarPropertyConstraint := ⟨none, [], [], [], none, none⟩

/-- Whether a value meets what was collected. -/
def valueSatisfiesConstraints (self : ScalarPropertyConstraint) (value : PropertyValue) : Bool :=
  self.equality.all (fun existing => propertyValuesEqual existing value) &&
    (self.inequalities.all fun excluded => !propertyValuesEqual excluded value) &&
    (self.lowerBounds.all fun bound => boundAllowsValue .lower bound value) &&
    (self.upperBounds.all fun bound => boundAllowsValue .upper bound value) &&
    self.nullability.all fun nullability => nullabilityAllowsValue nullability value

/-- None of the values meets it. -/
def allowedValuesAreImpossible (self : ScalarPropertyConstraint) (values : List PropertyValue) :
    Bool :=
  values.all fun value => !self.valueSatisfiesConstraints value

/-- The check after an addition: `none` when no allowed value is left. -/
def checkAllowed (self : ScalarPropertyConstraint) : Option ScalarPropertyConstraint :=
  if self.allowedValues.any self.allowedValuesAreImpossible then none else some self

/-- `add_nullability`; `none` is a contradiction. -/
def addNullability (self : ScalarPropertyConstraint) (nullability : NullabilityConstraint) :
    Option ScalarPropertyConstraint :=
  if self.nullability.any fun existing => existing != nullability then none
  else checkAllowed { self with nullability := some (self.nullability.getD nullability) }

/-- `add_equality`. -/
def addEquality (self : ScalarPropertyConstraint) (value : PropertyValue) :
    Option ScalarPropertyConstraint :=
  if (self.equality.any fun existing => !propertyValuesEqual existing value) ||
      (self.inequalities.any fun excluded => propertyValuesEqual excluded value) ||
      (self.allowedValues.any fun values =>
        !values.any fun allowed => propertyValuesEqual allowed value) ||
      (self.lowerBounds.any fun bound => !boundAllowsValue .lower bound value) ||
      self.upperBounds.any fun bound => !boundAllowsValue .upper bound value then
    none
  else do
    let self ← self.addNullability
      (if PropertyValue.beq value .null then .nullOrMissing else .nonNull)
    some { self with equality := some (self.equality.getD value) }

/-- `add_inequality`. -/
def addInequality (self : ScalarPropertyConstraint) (value : PropertyValue) :
    Option ScalarPropertyConstraint :=
  if self.equality.any fun existing => propertyValuesEqual existing value then none
  else checkAllowed { self with inequalities := self.inequalities ++ [value] }

/-- `add_lower`; a bounded property has a value. -/
def addLower (self : ScalarPropertyConstraint) (bound : LiteralBound) :
    Option ScalarPropertyConstraint := do
  let self ← self.addNullability .nonNull
  if (self.equality.any fun value => !boundAllowsValue .lower bound value) ||
      self.upperBounds.any fun upper => rangeBoundsAreDisjoint bound upper then
    none
  else checkAllowed { self with lowerBounds := self.lowerBounds ++ [bound] }

/-- `add_upper`. -/
def addUpper (self : ScalarPropertyConstraint) (bound : LiteralBound) :
    Option ScalarPropertyConstraint := do
  let self ← self.addNullability .nonNull
  if (self.equality.any fun value => !boundAllowsValue .upper bound value) ||
      self.lowerBounds.any fun lower => rangeBoundsAreDisjoint lower bound then
    none
  else checkAllowed { self with upperBounds := self.upperBounds ++ [bound] }

/-- The values of `left` that are also in `right`. -/
def intersectPropertyValues (left right : List PropertyValue) : List PropertyValue :=
  left.filter
    (membershipBy right left.length LiteralOrder.scalarNumeric.compare propertyValuesEqual)

/-- `add_allowed_values`. -/
def addAllowedValues (self : ScalarPropertyConstraint) (values : List PropertyValue) :
    Option ScalarPropertyConstraint :=
  let values := match self.allowedValues with
    | some existing => intersectPropertyValues existing values
    | none => values
  if values.isEmpty || self.allowedValuesAreImpossible values then none
  else some { self with allowedValues := some values }

end ScalarPropertyConstraint

/-! ## §3. The state as a set of values. -/

/-- The stored value lies on the inner side of the bound. -/
def LiteralBound.Holds (side : Side) (bound : LiteralBound) (x : Property.PropertyValue) : Prop :=
  ∃ ordering, x.compare bound.value.astToDbValue = some ordering ∧
    (ordering = side.inside ∨ ordering = .eq ∧ bound.inclusive = true)

/-- The stored values it allows. -/
def NullabilityConstraint.Holds (x : Property.PropertyValue) : NullabilityConstraint → Prop
  | .nullOrMissing => x = .null
  | .nonNull => x ≠ .null

/-- `x` meets every constraint collected. -/
structure ScalarPropertyConstraint.Admits (state : ScalarPropertyConstraint)
    (x : Property.PropertyValue) : Prop where
  equality : ∀ v ∈ state.equality, x.eqValue v.astToDbValue = true
  inequalities : ∀ v ∈ state.inequalities, x.eqValue v.astToDbValue = false
  lowerBounds : ∀ bound ∈ state.lowerBounds, bound.Holds .lower x
  upperBounds : ∀ bound ∈ state.upperBounds, bound.Holds .upper x
  nullability : ∀ n ∈ state.nullability, n.Holds x
  allowedValues : ∀ values ∈ state.allowedValues, ∃ v ∈ values, x.eqValue v.astToDbValue = true

variable {bound : LiteralBound}

section Admits

variable {x : Property.PropertyValue} {v w : PropertyValue}

theorem LiteralBound.Holds.allows {side : Side} (h : bound.Holds side x)
    (hx : x.eqValue v.astToDbValue = true) : boundAllowsValue side bound v = true := by
  obtain ⟨o, ho, hinside⟩ := h
  unfold boundAllowsValue
  rw [propertyValueOrdering_eq, ← compare_congr hx, ho]
  simpa using hinside

/-- Bounds that hold of one value are not disjoint. -/
theorem LiteralBound.Holds.not_disjoint {lower upper : LiteralBound} (hlo : lower.Holds .lower x)
    (hhi : upper.Holds .upper x) : rangeBoundsAreDisjoint lower upper = false := by
  obtain ⟨o, ho, hlo⟩ := hlo
  obtain ⟨p, hp, hhi⟩ := hhi
  obtain ⟨k, l, hk, hl, hdomain, rfl⟩ := compare_eq_some ho
  obtain ⟨k', u, hk', hu, hdomain', rfl⟩ := compare_eq_some hp
  cases hk.symm.trans hk'
  unfold rangeBoundsAreDisjoint
  rw [propertyValueOrdering_eq,
    compare_of_keys hl hu (hdomain.symm.trans hdomain')]
  simp only [Side.inside, cmp_eq_gt_iff, cmp_eq_lt_iff, cmp_eq_eq_iff] at hlo hhi
  -- the lower endpoint is below the value or at it, the upper one above or at it
  rcases hlo with hlo | ⟨rfl, hincl⟩
  · have hlt : l < u := by
      rcases hhi with hhi | ⟨rfl, _⟩
      · exact hlo.trans hhi
      · exact hlo
    rw [(cmp_eq_lt_iff _ _).mpr hlt]
  · rcases hhi with hhi | ⟨rfl, hincl'⟩
    · rw [(cmp_eq_lt_iff _ _).mpr hhi]
    · simp [hincl, hincl']

theorem eq_null_iff_beq (hx : x.eqValue v.astToDbValue = true) :
    x = .null ↔ PropertyValue.beq v .null = true := by
  constructor
  · rintro rfl
    have hnull := eqValue_null_iff.mp
      (eqValue_symm hx)
    cases v <;> first | rfl | cases hnull
  · intro hv
    cases v <;> first | exact eqValue_null_iff.mp hx | cases hv

theorem NullabilityConstraint.Holds.allows {n : NullabilityConstraint} (h : n.Holds x)
    (hx : x.eqValue v.astToDbValue = true) : nullabilityAllowsValue n v = true := by
  cases n with
  | nullOrMissing => exact (eq_null_iff_beq hx).mp h
  | nonNull =>
    have hne : ¬PropertyValue.beq v .null = true := fun hv => h ((eq_null_iff_beq hx).mpr hv)
    simpa [nullabilityAllowsValue] using hne

namespace ScalarPropertyConstraint

variable {self : ScalarPropertyConstraint}

theorem admits_unconstrained : unconstrained.Admits x :=
  ⟨by simp [unconstrained], by simp [unconstrained], by simp [unconstrained],
    by simp [unconstrained], by simp [unconstrained], by simp [unconstrained]⟩

theorem propertyValuesEqual_ne_of_excluded (hw : x.eqValue w.astToDbValue = false)
    (hx : x.eqValue v.astToDbValue = true) : propertyValuesEqual w v = false := by
  cases hwv : propertyValuesEqual w v with
  | false => rfl
  | true =>
    have := eqValue_of_propertyValuesEqual hx (propertyValuesEqual_symm hwv)
    exact absurd (hw.symm.trans this) Bool.false_ne_true

section

variable (h : self.Admits x)
include h

/-- **A literal equal to an admitted value passes every check.** -/
theorem satisfies_of_admits (hx : x.eqValue v.astToDbValue = true) :
    self.valueSatisfiesConstraints v = true := by
  simp only [valueSatisfiesConstraints, Bool.and_eq_true, Option.all_eq_true, all_eq_true,
    Bool.not_eq_true']
  refine ⟨⟨⟨⟨fun w hw => ?_, fun w hw => ?_⟩, fun bound hb => ?_⟩, fun bound hb => ?_⟩,
    fun n hn => ?_⟩
  · exact propertyValuesEqual_of_common (h.equality w hw) hx
  · exact propertyValuesEqual_ne_of_excluded (h.inequalities w hw) hx
  · exact (h.lowerBounds bound hb).allows hx
  · exact (h.upperBounds bound hb).allows hx
  · exact (h.nullability n hn).allows hx

theorem not_impossible_of_admits {values : List PropertyValue}
    (hmem : ∃ v ∈ values, x.eqValue v.astToDbValue = true) :
    self.allowedValuesAreImpossible values = false := by
  obtain ⟨v, hv, hx⟩ := hmem
  rw [allowedValuesAreImpossible, all_eq_false]
  exact ⟨v, hv, by simp [satisfies_of_admits h hx]⟩

theorem checkAllowed_of_admits : self.checkAllowed = some self := by
  unfold checkAllowed
  rw [if_neg]
  intro hany
  obtain ⟨values, hvalues, himpossible⟩ := (Option.any_eq_true ..).mp hany
  simp [not_impossible_of_admits h (h.allowedValues values hvalues)] at himpossible

/-! ### Each addition -/

theorem addNullability_admits {n : NullabilityConstraint} (hn : n.Holds x) :
    ∃ next, self.addNullability n = some next ∧ next.Admits x := by
  have hsame : ∀ existing ∈ self.nullability, existing = n := by
    intro existing hmem
    have hexisting := h.nullability existing hmem
    cases existing <;> cases n <;> first | rfl | exact absurd hn hexisting | exact absurd hexisting hn
  have hgetD : self.nullability.getD n = n := by
    cases hself : self.nullability with
    | none => rfl
    | some existing => exact hsame existing hself
  have hnext : ({ self with nullability := some (self.nullability.getD n) } :
      ScalarPropertyConstraint).Admits x :=
    { h with nullability := by simpa [hgetD] using hn }
  refine ⟨_, ?_, hnext⟩
  rw [addNullability, if_neg, checkAllowed_of_admits hnext]
  intro hany
  obtain ⟨existing, hmem, hne⟩ := (Option.any_eq_true ..).mp hany
  exact (bne_iff_ne.mp hne) (hsame existing hmem)

theorem addEquality_admits (hx : x.eqValue v.astToDbValue = true) :
    ∃ next, self.addEquality v = some next ∧ next.Admits x := by
  have hnull : NullabilityConstraint.Holds x
      (if PropertyValue.beq v .null then .nullOrMissing else .nonNull) := by
    split
    next hv => exact (eq_null_iff_beq hx).mpr hv
    next hv => exact fun hxnull => hv ((eq_null_iff_beq hx).mp hxnull)
  obtain ⟨next, hnext, hadmits⟩ := addNullability_admits h hnull
  refine ⟨{ next with equality := some (next.equality.getD v) }, ?_, ?_⟩
  · rw [addEquality, if_neg, hnext]
    · rfl
    simp only [Bool.or_eq_true, Option.any_eq_true, any_eq_true, Bool.not_eq_true']
    rintro ((((⟨w, hw, hne⟩ | ⟨w, hw, heq⟩) | ⟨values, hvalues, hnone⟩) | ⟨b, hb, hnot⟩) | ⟨b, hb, hnot⟩)
    · simp [propertyValuesEqual_of_common (h.equality w hw) hx] at hne
    · simp [propertyValuesEqual_ne_of_excluded (h.inequalities w hw) hx] at heq
    · obtain ⟨w, hw, hxw⟩ := h.allowedValues values hvalues
      exact absurd (propertyValuesEqual_of_common hxw hx) (any_eq_false.mp hnone w hw)
    · simp [(h.lowerBounds b hb).allows hx] at hnot
    · simp [(h.upperBounds b hb).allows hx] at hnot
  · refine { hadmits with equality := ?_ }
    intro w hw
    cases hequality : next.equality with
    | none =>
      rw [hequality] at hw
      cases hw
      exact hx
    | some existing =>
      rw [hequality] at hw
      cases hw
      exact hadmits.equality _ hequality

theorem addInequality_admits (hx : x.eqValue v.astToDbValue = false) :
    ∃ next, self.addInequality v = some next ∧ next.Admits x := by
  have hnext : ({ self with inequalities := self.inequalities ++ [v] } :
      ScalarPropertyConstraint).Admits x := by
    refine { h with inequalities := ?_ }
    intro w hw
    rcases mem_append.mp hw with hw | hw
    · exact h.inequalities w hw
    · exact mem_singleton.mp hw ▸ hx
  refine ⟨_, ?_, hnext⟩
  rw [addInequality, if_neg, checkAllowed_of_admits hnext]
  intro hany
  obtain ⟨w, hw, heq⟩ := (Option.any_eq_true ..).mp hany
  have := eqValue_of_propertyValuesEqual (h.equality w hw) heq
  exact absurd (hx.symm.trans this) Bool.false_ne_true

end

/-- A value on the inner side of a bound is not null. -/
theorem ne_null_of_holds {side : Side} (h : bound.Holds side x) :
    x ≠ .null := by
  rintro rfl
  obtain ⟨o, ho, -⟩ := h
  obtain ⟨k, _, hk, -⟩ := compare_eq_some ho
  cases hk

theorem addLower_admits (h : self.Admits x) (hb : bound.Holds .lower x) :
    ∃ next, self.addLower bound = some next ∧ next.Admits x := by
  obtain ⟨mid, hmid, hadmits⟩ :=
    addNullability_admits h (n := .nonNull) (ne_null_of_holds hb)
  have hnext : ({ mid with lowerBounds := mid.lowerBounds ++ [bound] } :
      ScalarPropertyConstraint).Admits x := by
    refine { hadmits with lowerBounds := ?_ }
    intro other hother
    rcases mem_append.mp hother with hother | hother
    · exact hadmits.lowerBounds other hother
    · exact mem_singleton.mp hother ▸ hb
  refine ⟨_, ?_, hnext⟩
  rw [addLower, hmid]
  show (if _ then none else _) = _
  rw [if_neg, checkAllowed_of_admits hnext]
  simp only [Bool.or_eq_true, Option.any_eq_true, any_eq_true]
  rintro (⟨w, hw, hnot⟩ | ⟨upper, hupper, hdisjoint⟩)
  · rw [hb.allows (hadmits.equality w hw)] at hnot
    cases hnot
  · simp [hb.not_disjoint (hadmits.upperBounds upper hupper)] at hdisjoint

theorem addUpper_admits (h : self.Admits x) (hb : bound.Holds .upper x) :
    ∃ next, self.addUpper bound = some next ∧ next.Admits x := by
  obtain ⟨mid, hmid, hadmits⟩ :=
    addNullability_admits h (n := .nonNull) (ne_null_of_holds hb)
  have hnext : ({ mid with upperBounds := mid.upperBounds ++ [bound] } :
      ScalarPropertyConstraint).Admits x := by
    refine { hadmits with upperBounds := ?_ }
    intro other hother
    rcases mem_append.mp hother with hother | hother
    · exact hadmits.upperBounds other hother
    · exact mem_singleton.mp hother ▸ hb
  refine ⟨_, ?_, hnext⟩
  rw [addUpper, hmid]
  show (if _ then none else _) = _
  rw [if_neg, checkAllowed_of_admits hnext]
  simp only [Bool.or_eq_true, Option.any_eq_true, any_eq_true]
  rintro (⟨w, hw, hnot⟩ | ⟨lower, hlower, hdisjoint⟩)
  · rw [hb.allows (hadmits.equality w hw)] at hnot
    cases hnot
  · simp [(hadmits.lowerBounds lower hlower).not_disjoint hb] at hdisjoint

theorem addAllowedValues_admits (h : self.Admits x) {values : List PropertyValue}
    (hx : ∃ v ∈ values, x.eqValue v.astToDbValue = true) :
    ∃ next, self.addAllowedValues values = some next ∧ next.Admits x := by
  have hboth : ∃ v ∈ (match self.allowedValues with
      | some existing => intersectPropertyValues existing values
      | none => values), x.eqValue v.astToDbValue = true := by
    cases hallowed : self.allowedValues with
    | none => exact hx
    | some existing =>
      obtain ⟨v, hv, hxv⟩ := hx
      obtain ⟨w, hw, hxw⟩ := h.allowedValues existing hallowed
      refine ⟨w, mem_filter.mpr ⟨hw, ?_⟩, hxw⟩
      rw [membershipBy_literals]
      exact any_eq_true.mpr ⟨v, hv, propertyValuesEqual_of_common hxw hxv⟩
  unfold addAllowedValues
  generalize (match self.allowedValues with
    | some existing => intersectPropertyValues existing values
    | none => values) = both at hboth ⊢
  obtain ⟨v, hv, hxv⟩ := hboth
  refine ⟨{ self with allowedValues := some both }, ?_, { h with allowedValues := ?_ }⟩
  · show (if _ then none else _) = _
    rw [if_neg]
    rw [not_impossible_of_admits h ⟨v, hv, hxv⟩, Bool.or_false]
    intro hempty
    simp [isEmpty_iff.mp hempty] at hv
  · rintro _ ⟨⟩
    exact ⟨v, hv, hxv⟩

end ScalarPropertyConstraint

end Admits

/-! ## §4. One update. -/

/-- What one atom adds to the state of its property. -/
inductive ScalarUpdate where
  | nullability (nullability : NullabilityConstraint)
  | allowed (values : List PropertyValue)
  | equality (value : PropertyValue)
  | inequality (value : PropertyValue)
  | bound (side : Side) (bound : LiteralBound)
  | between (lower upper : LiteralBound)

/-- An update as its method makes it. -/
def ScalarUpdate.apply (state : ScalarPropertyConstraint) :
    ScalarUpdate → Option ScalarPropertyConstraint
  | .nullability n => state.addNullability n
  | .allowed values => state.addAllowedValues values
  | .equality value => state.addEquality value
  | .inequality value => state.addInequality value
  | .bound .lower b => state.addLower b
  | .bound .upper b => state.addUpper b
  | .between lower upper => (state.addLower lower).bind (·.addUpper upper)

/-- The stored values an update allows. -/
def ScalarUpdate.Holds (x : Property.PropertyValue) : ScalarUpdate → Prop
  | .nullability n => n.Holds x
  | .allowed values => ∃ v ∈ values, x.eqValue v.astToDbValue = true
  | .equality value => x.eqValue value.astToDbValue = true
  | .inequality value => x.eqValue value.astToDbValue = false
  | .bound side b => b.Holds side x
  | .between lower upper => lower.Holds .lower x ∧ upper.Holds .upper x

/-- **An update that holds of an admitted value succeeds and keeps it admitted.** -/
theorem ScalarUpdate.apply_admits {x : Property.PropertyValue} {state : ScalarPropertyConstraint}
    (h : state.Admits x) {update : ScalarUpdate} (hupdate : update.Holds x) :
    ∃ next, update.apply state = some next ∧ next.Admits x := by
  cases update with
  | nullability n => exact ScalarPropertyConstraint.addNullability_admits h hupdate
  | allowed values => exact ScalarPropertyConstraint.addAllowedValues_admits h hupdate
  | equality v => exact ScalarPropertyConstraint.addEquality_admits h hupdate
  | inequality v => exact ScalarPropertyConstraint.addInequality_admits h hupdate
  | bound side b =>
    cases side with
    | lower => exact ScalarPropertyConstraint.addLower_admits h hupdate
    | upper => exact ScalarPropertyConstraint.addUpper_admits h hupdate
  | between lower upper =>
    obtain ⟨mid, hmid, hadmits⟩ := ScalarPropertyConstraint.addLower_admits h hupdate.1
    obtain ⟨next, hnext, hadmits'⟩ := ScalarPropertyConstraint.addUpper_admits hadmits hupdate.2
    exact ⟨next, by rw [apply, hmid, Option.bind_some, hnext], hadmits'⟩

end HelixDb.Planner
