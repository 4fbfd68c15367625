/-
  HelixDb.Planner.StaticImpossible

  **STATICALLY IMPOSSIBLE PREDICATES.**

  An atom that relates a property to a literal constrains that property; a
  conjunction collects the constraints of its atoms, nested conjunctions
  included, and is impossible when they contradict; a disjunction is impossible
  when every branch is.

    • `atomicEffect_sound` — what the extraction takes from a true atom holds;
    • `eval_of_staticallyImpossible` — an impossible predicate is never true.
-/
import HelixDb.Planner.ScalarConstraint
import HelixDb.Planner.StaticTruth

namespace HelixDb.Planner

open HelixDb.Lib Predicate LiteralBound Option
open Property.PropertyValue (eqValue_symm compare_swap compare_eq_some compare_of_keys)
open HelixDb.Ast (PropertyValue)
open IndexBound (Side)

/-! ## §1. What an atom says of a property. -/

/-- A property that is in a literal collection. -/
def literalInCollection : Predicate → Option (String × LiteralCollection)
  | .isIn (.property property) (.constant values) =>
    (LiteralCollection.new values).map fun values => (property, values)
  | _ => none

/-- A test for `null`. -/
def nullabilityConstraint : Predicate → Option (String × NullabilityConstraint)
  | .isNull property => some (property, .nullOrMissing)
  | .isNotNull property => some (property, .nonNull)
  | _ => none

/-- A property against a literal, in either order. -/
def propertyLiteralValue : Expr → Expr → Option (String × PropertyValue)
  | .property property, .constant value | .constant value, .property property =>
    some (property, value)
  | _, _ => none

/-- A property that equals a literal. -/
def equalityLiteral : Predicate → Option (String × PropertyValue)
  | .compare left .eq right => propertyLiteralValue left right
  | _ => none

/-- A property that differs from a literal. -/
def inequalityLiteral : Predicate → Option (String × PropertyValue)
  | .compare left .neq right => propertyLiteralValue left right
  | _ => none

/-- The side a property on the left is bounded on, and whether the endpoint counts. -/
def CompareOp.boundSide : CompareOp → Option (Side × Bool)
  | .gt => some (.lower, false)
  | .gte => some (.lower, true)
  | .lt => some (.upper, false)
  | .lte => some (.upper, true)
  | .eq | .neq => none

/-- The other side. -/
def oppositeSide : Side → Side
  | .lower => .upper
  | .upper => .lower

/-- `range_bound_from_compare`: a property on the right is bounded on the other side. -/
def rangeBoundFromCompare (left right : Expr) (side : Side) (inclusive : Bool) :
    Option (String × Side × LiteralBound) :=
  match left, right with
  | .property property, .constant value =>
    (new value inclusive).map fun bound => (property, side, bound)
  | .constant value, .property property =>
    (new value inclusive).map fun bound => (property, oppositeSide side, bound)
  | _, _ => none

/-- A property bounded by a literal. -/
def rangeBoundLiteral : Predicate → Option (String × Side × LiteralBound)
  | .compare left op right =>
    op.boundSide.bind fun side => rangeBoundFromCompare left right side.1 side.2
  | _ => none

/-- A literal in no range domain, compared with a property. -/
def unorderable : Expr → Expr → Bool
  | .property _, .constant value | .constant value, .property _ =>
    (RangeIndexLiteral.tryFromPropertyValue value).isNone
  | _, _ => false

/-- A comparison with a literal that has no order. -/
def incomparableRangeLiteral : Predicate → Bool
  | .compare left op right => op.boundSide.isSome && unorderable left right
  | .between (.property _) (.constant min) (.constant max) =>
    (propertyValueOrdering min max).isNone
  | _ => false

/-- A property between two literals. -/
def betweenLiteralBounds : Predicate → Option (String × LiteralBound × LiteralBound)
  | .between (.property property) (.constant min) (.constant max) => do
    let lower ← new min true
    let upper ← new max true
    some (property, lower, upper)
  | _ => none

/-- Membership in nothing. -/
def isInEmptyLiteralCollection : Predicate → Bool
  | .isIn _ (.constant values) => literalCollectionIsEmpty values
  | _ => false

/-- The outcome of `add_atomic_constraint`, before the state is known. -/
inductive AtomicEffect where
  | impossible
  | update (property : String) (update : ScalarUpdate)
  | unconstrained

/-- The extractions in the order they are tried. -/
def atomicEffect (predicate : Predicate) : AtomicEffect :=
  if isInEmptyLiteralCollection predicate || incomparableRangeLiteral predicate then .impossible
  else
    match nullabilityConstraint predicate with
    | some (property, nullability) => .update property (.nullability nullability)
    | none =>
    match literalInCollection predicate with
    | some (property, values) => .update property (.allowed values.ownedValues)
    | none =>
    match equalityLiteral predicate with
    | some (property, value) => .update property (.equality value)
    | none =>
    match inequalityLiteral predicate with
    | some (property, value) => .update property (.inequality value)
    | none =>
    match rangeBoundLiteral predicate with
    | some (property, side, bound) => .update property (.bound side bound)
    | none =>
    match betweenLiteralBounds predicate with
    | some (property, lower, upper) => .update property (.between lower upper)
    | none => .unconstrained

/-! ## §2. Collecting constraints. -/

/-- Constraints by property; a property never touched is unconstrained. -/
abbrev PropertyConstraints := String → ScalarPropertyConstraint

/-- `add_atomic_constraint` on the map; `none` is a contradiction. -/
def addAtomicConstraint (predicate : Predicate) (constraints : PropertyConstraints) :
    Option PropertyConstraints :=
  match atomicEffect predicate with
  | .impossible => none
  | .update property update =>
    (update.apply (constraints property)).map (Function.update constraints property)
  | .unconstrained => some constraints

/-- `add_atomic_constraint` on the one property an atom constrains. -/
def atomicPredicateIsStaticallyImpossible (predicate : Predicate) : Bool :=
  match atomicEffect predicate with
  | .impossible => true
  | .update _ update => (update.apply .unconstrained).isNone
  | .unconstrained => false

mutual

/-- `predicate_is_statically_impossible`. -/
def predicateIsStaticallyImpossible (predicate : Predicate) : Bool :=
  staticPredicateValue predicate == some false ||
    match predicate with
    | .and predicates =>
      (addConjunctiveConstraints predicates fun _ => .unconstrained).isNone
    | .or predicates => !predicates.isEmpty && allStaticallyImpossible predicates
    | predicate => atomicPredicateIsStaticallyImpossible predicate

/-- All of the predicates are. -/
def allStaticallyImpossible : List Predicate → Bool
  | [] => true
  | predicate :: predicates =>
    predicateIsStaticallyImpossible predicate && allStaticallyImpossible predicates

/-- What one conjunct adds; `none` is a contradiction. -/
def addConjunctiveConstraint (predicate : Predicate) (constraints : PropertyConstraints) :
    Option PropertyConstraints :=
  match predicate with
  | .and predicates => addConjunctiveConstraints predicates constraints
  | .or predicates =>
    if !predicates.isEmpty && allStaticallyImpossible predicates then none else some constraints
  | predicate => addAtomicConstraint predicate constraints

/-- The atoms of a conjunction in order, until one contradicts. -/
def addConjunctiveConstraints (predicates : List Predicate) (constraints : PropertyConstraints) :
    Option PropertyConstraints :=
  match predicates with
  | [] => some constraints
  | predicate :: predicates =>
    (addConjunctiveConstraint predicate constraints).bind
      (addConjunctiveConstraints predicates)

end

/-! ## §3. True atoms. -/

variable {ε : Type} {row : Row ε}

/-- The row's property has a value of which the update holds. -/
def Row.Meets (row : Row ε) (property : String) (update : ScalarUpdate) : Prop :=
  ∃ value, row.property property = .ok value ∧ update.Holds (value.getD .null)

theorem Expr.eval_property {name : String} {x : Property.PropertyValue}
    (h : (Expr.property name).eval row = .ok x) :
    ∃ value, row.property name = .ok value ∧ x = value.getD .null := by
  obtain ⟨value, hvalue, h⟩ := except_bind_ok h
  cases h
  exact ⟨value, hvalue, rfl⟩

variable {property : String}

/-- A true comparison of a property and a literal, read with the property first. -/
theorem eval_propertyLiteralValue {left right : Expr} {v : PropertyValue}
    (h : propertyLiteralValue left right = some (property, v)) {x y : Property.PropertyValue}
    (hx : left.eval row = .ok x) (hy : right.eval row = .ok y) :
    ∃ value, row.property property = .ok value ∧
      x.eqValue y = (value.getD .null).eqValue v.astToDbValue := by
  unfold propertyLiteralValue at h
  split at h
  next =>
    cases h
    obtain ⟨value, hvalue, rfl⟩ := Expr.eval_property hx
    exact ⟨value, hvalue, by rw [Expr.eval_constant hy]⟩
  next =>
    cases h
    obtain ⟨value, hvalue, rfl⟩ := Expr.eval_property hy
    refine ⟨value, hvalue, ?_⟩
    rw [Expr.eval_constant hx, Bool.eq_iff_iff]
    exact ⟨eqValue_symm, eqValue_symm⟩
  next => cases h

variable {predicate : Predicate}

theorem nullabilityConstraint_sound
    {n : NullabilityConstraint} (h : nullabilityConstraint predicate = some (property, n))
    (htrue : predicate.eval row = .ok true) : row.Meets property (.nullability n) := by
  cases predicate <;> cases h
  all_goals
    rw [Predicate.eval] at htrue
    obtain ⟨x, hx, htrue⟩ := except_bind_ok htrue
    obtain ⟨value, hvalue, rfl⟩ := Expr.eval_property hx
    refine ⟨value, hvalue, ?_⟩
    simp [ScalarUpdate.Holds]
  · cases hnull : value.getD .null <;> rw [hnull] at htrue <;> first | rfl | cases htrue
  · intro hnull
    rw [hnull] at htrue
    cases htrue

theorem literalInCollection_sound {collection : LiteralCollection}
    (h : literalInCollection predicate = some (property, collection))
    (htrue : predicate.eval row = .ok true) :
    row.Meets property (.allowed collection.ownedValues) := by
  unfold literalInCollection at h
  split at h
  next name values =>
    obtain ⟨c, hc, hsame⟩ := map_eq_some_iff.mp h
    cases hsame
    rw [Predicate.eval] at htrue
    obtain ⟨x, hx, htrue⟩ := except_bind_ok htrue
    obtain ⟨y, hy, htrue⟩ := except_bind_ok htrue
    obtain ⟨value, hvalue, rfl⟩ := Expr.eval_property hx
    rw [Expr.eval_constant hy, propertyValueIsIn_items hc] at htrue
    have hany := Except.ok.inj htrue
    obtain ⟨item, hitem, heq⟩ := List.any_eq_true.mp hany
    -- The distinct values keep every equality class.
    refine ⟨value, hvalue, ?_⟩
    rcases exists_mem_dedupPropertyValues [] collection.items hitem with ⟨w, hw, rfl | hsame⟩ | ⟨i, hi, _⟩
    · exact ⟨w, hw, eqValue_symm heq⟩
    · exact ⟨w, hw, eqValue_of_propertyValuesEqual (eqValue_symm heq) hsame⟩
    · cases hi
  next => cases h

theorem equalityLiteral_sound {v : PropertyValue}
    (h : equalityLiteral predicate = some (property, v)) (htrue : predicate.eval row = .ok true) :
    row.Meets property (.equality v) := by
  unfold equalityLiteral at h
  split at h
  next left right =>
    obtain ⟨x, y, hx, hy, heval⟩ := eval_compare htrue
    obtain ⟨value, hvalue, heq⟩ := eval_propertyLiteralValue h hx hy
    exact ⟨value, hvalue, heq.symm.trans heval.symm⟩
  next => cases h

theorem inequalityLiteral_sound {v : PropertyValue}
    (h : inequalityLiteral predicate = some (property, v))
    (htrue : predicate.eval row = .ok true) : row.Meets property (.inequality v) := by
  unfold inequalityLiteral at h
  split at h
  next left right =>
    obtain ⟨x, y, hx, hy, heval⟩ := eval_compare htrue
    obtain ⟨value, hvalue, heq⟩ := eval_propertyLiteralValue h hx hy
    refine ⟨value, hvalue, heq.symm.trans ?_⟩
    have hnot : true = !x.eqValue y := heval
    exact Bool.not_eq_true' _ |>.mp hnot.symm
  next => cases h

theorem LiteralBound.new_eq {value : PropertyValue} {inclusive : Bool} {bound : LiteralBound}
    (h : new value inclusive = some bound) :
    bound.value = value ∧ bound.inclusive = inclusive := by
  unfold new at h
  split_ifs at h
  cases h
  exact ⟨rfl, rfl⟩

/-- The orderings an order test accepts: inside its side, or its endpoint. -/
theorem CompareOp.eval_eq_of_boundSide {op : CompareOp} {side : Side} {inclusive : Bool}
    (h : op.boundSide = some (side, inclusive)) (x y : Property.PropertyValue) :
    op.eval x y = true ↔ ∃ o, x.compare y = some o ∧
      (o = side.inside ∨ o = .eq ∧ inclusive = true) := by
  have heval : op.eval x y = (x.compare y).any op.ofOrdering := by cases op <;> first | rfl | cases h
  rw [heval, any_eq_true]
  cases op <;> cases h <;> simp [CompareOp.ofOrdering, Side.inside]

theorem rangeBoundLiteral_sound {side : Side}
    {bound : LiteralBound} (h : rangeBoundLiteral predicate = some (property, side, bound))
    (htrue : predicate.eval row = .ok true) : row.Meets property (.bound side bound) := by
  unfold rangeBoundLiteral at h
  split at h
  next left op right =>
    obtain ⟨⟨opSide, inclusive⟩, hop, h⟩ := bind_eq_some_iff.mp h
    obtain ⟨x, y, hx, hy, heval⟩ := eval_compare htrue
    obtain ⟨o, ho, hinside⟩ := (CompareOp.eval_eq_of_boundSide hop x y).mp heval.symm
    unfold rangeBoundFromCompare at h
    split at h
    next =>
      obtain ⟨b, hb, hsame⟩ := map_eq_some_iff.mp h
      cases hsame
      obtain ⟨hvalue, hincl⟩ := new_eq hb
      obtain ⟨value, hproperty, rfl⟩ := Expr.eval_property hx
      rw [Expr.eval_constant hy] at ho
      exact ⟨value, hproperty, o, by rw [hvalue]; exact ho, by rw [hincl]; exact hinside⟩
    next =>
      -- the literal stands on the left, so its test bounds the property from the other side
      obtain ⟨b, hb, hsame⟩ := map_eq_some_iff.mp h
      cases hsame
      obtain ⟨hvalue, hincl⟩ := new_eq hb
      obtain ⟨value, hproperty, rfl⟩ := Expr.eval_property hy
      rw [Expr.eval_constant hx] at ho
      refine ⟨value, hproperty, o.swap, ?_, ?_⟩
      · rw [hvalue]
        exact compare_swap ho
      · rw [hincl]
        rcases hinside with rfl | ⟨rfl, hinclusive⟩
        · left
          cases opSide <;> rfl
        · exact .inr ⟨rfl, hinclusive⟩
    next => cases h
  next => cases h

/-- A true range test compared the value with both ends. -/
theorem Predicate.eval_between_true {value min max : Expr}
    (h : (between value min max).eval row = .ok true) :
    ∃ x lo hi, value.eval row = .ok x ∧ min.eval row = .ok lo ∧ max.eval row = .ok hi ∧
      CompareOp.gte.eval x lo = true ∧ CompareOp.lte.eval x hi = true := by
  rw [Predicate.eval] at h
  obtain ⟨x, hx, h⟩ := except_bind_ok h
  obtain ⟨lo, hlo, h⟩ := except_bind_ok h
  split at h
  next hgte =>
    obtain ⟨hi, hhi, h⟩ := except_bind_ok h
    exact ⟨x, lo, hi, hx, hlo, hhi, hgte, Except.ok.inj h⟩
  next => cases h

theorem betweenLiteralBounds_sound {lower upper : LiteralBound}
    (h : betweenLiteralBounds predicate = some (property, lower, upper))
    (htrue : predicate.eval row = .ok true) : row.Meets property (.between lower upper) := by
  unfold betweenLiteralBounds at h
  split at h
  next name min max =>
    obtain ⟨lo, hlo, h⟩ := bind_eq_some_iff.mp h
    obtain ⟨hi, hhi, h⟩ := bind_eq_some_iff.mp h
    cases h
    obtain ⟨x, y, z, hx, hy, hz, hgte, hlte⟩ := eval_between_true htrue
    obtain ⟨value, hproperty, rfl⟩ := Expr.eval_property hx
    rw [Expr.eval_constant hy, CompareOp.eval_eq_of_boundSide rfl] at hgte
    rw [Expr.eval_constant hz, CompareOp.eval_eq_of_boundSide rfl] at hlte
    refine ⟨value, hproperty, ?_, ?_⟩
    · rwa [Holds, (new_eq hlo).1, (new_eq hlo).2]
    · rwa [Holds, (new_eq hhi).1, (new_eq hhi).2]
  next => cases h

theorem incomparableRangeLiteral_sound
    (h : incomparableRangeLiteral predicate = true) : predicate.eval row ≠ .ok true := by
  intro htrue
  unfold incomparableRangeLiteral at h
  split at h
  next left op right =>
    obtain ⟨hop, hunorderable⟩ := Bool.and_eq_true_iff.mp h
    obtain ⟨⟨side, inclusive⟩, hop⟩ := isSome_iff_exists.mp hop
    obtain ⟨x, y, hx, hy, heval⟩ := eval_compare htrue
    obtain ⟨o, ho, -⟩ := (CompareOp.eval_eq_of_boundSide hop x y).mp heval.symm
    unfold unorderable at hunorderable
    split at hunorderable
    next =>
      rw [Expr.eval_constant hy,
        RangeIndexLiteral.compare_eq_none_of_tryFrom (isNone_iff_eq_none.mp hunorderable)] at ho
      cases ho
    next =>
      have hswap := compare_swap ho
      rw [Expr.eval_constant hx,
        RangeIndexLiteral.compare_eq_none_of_tryFrom (isNone_iff_eq_none.mp hunorderable)]
          at hswap
      cases hswap
    next => cases hunorderable
  next name min max =>
    obtain ⟨x, y, z, hx, hy, hz, hgte, hlte⟩ := eval_between_true htrue
    rw [Expr.eval_constant hy, CompareOp.eval_eq_of_boundSide rfl] at hgte
    rw [Expr.eval_constant hz, CompareOp.eval_eq_of_boundSide rfl] at hlte
    obtain ⟨o, ho, -⟩ := hgte
    obtain ⟨p, hp, -⟩ := hlte
    -- both ends share the value's domain, so they compare with each other
    obtain ⟨k, l, hk, hl, hdomain, -⟩ := compare_eq_some ho
    obtain ⟨k', u, hk', hu, hdomain', -⟩ := compare_eq_some hp
    cases hk.symm.trans hk'
    rw [propertyValueOrdering_eq,
      compare_of_keys hl hu (hdomain.symm.trans hdomain')] at h
    cases h
  next => cases h

theorem isInEmptyLiteralCollection_sound
    (h : isInEmptyLiteralCollection predicate = true) : predicate.eval row ≠ .ok true := by
  intro htrue
  unfold isInEmptyLiteralCollection at h
  split at h
  next value values =>
    rw [Predicate.eval] at htrue
    obtain ⟨x, hx, htrue⟩ := except_bind_ok htrue
    obtain ⟨y, hy, htrue⟩ := except_bind_ok htrue
    rw [Expr.eval_constant hy] at htrue
    have hin := Except.ok.inj htrue
    cases values <;> simp only [literalCollectionIsEmpty, Bool.false_eq_true,
      List.isEmpty_iff] at h <;> subst h <;> cases hin
  next => cases h

/-- The rows an effect allows. -/
def AtomicEffect.Holds (row : Row ε) : AtomicEffect → Prop
  | .impossible => False
  | .update property u => row.Meets property u
  | .unconstrained => True

/-- **Whatever is taken from a true atom holds of the row.** -/
theorem atomicEffect_sound (htrue : predicate.eval row = .ok true) :
    (atomicEffect predicate).Holds row := by
  unfold atomicEffect
  split
  next himpossible =>
    rcases Bool.or_eq_true_iff.mp himpossible with h | h
    · exact isInEmptyLiteralCollection_sound h htrue
    · exact incomparableRangeLiteral_sound h htrue
  next =>
    split
    next h => exact nullabilityConstraint_sound h htrue
    next =>
    split
    next h => exact literalInCollection_sound h htrue
    next =>
    split
    next h => exact equalityLiteral_sound h htrue
    next =>
    split
    next h => exact inequalityLiteral_sound h htrue
    next =>
    split
    next h => exact rangeBoundLiteral_sound h htrue
    next =>
    split
    next h => exact betweenLiteralBounds_sound h htrue
    next => trivial

/-! ## §4. Impossible predicates. -/

/-- Every constrained property of the row has a value its constraints admit. -/
def PropertyConstraints.Admit (constraints : PropertyConstraints) (row : Row ε) : Prop :=
  ∀ property, constraints property = .unconstrained ∨
    ∃ value, row.property property = .ok value ∧ (constraints property).Admits (value.getD .null)

theorem addAtomicConstraint_admits {constraints : PropertyConstraints}
    (h : constraints.Admit row) (htrue : predicate.eval row = .ok true) :
    ∃ next, addAtomicConstraint predicate constraints = some next ∧
      PropertyConstraints.Admit next row := by
  have heffect := atomicEffect_sound htrue
  unfold addAtomicConstraint
  cases hcase : atomicEffect predicate with
  | impossible =>
    rw [hcase] at heffect
    exact heffect.elim
  | unconstrained => exact ⟨constraints, rfl, h⟩
  | update property update =>
    rw [hcase] at heffect
    obtain ⟨value, hvalue, hholds⟩ := heffect
    have hadmits : (constraints property).Admits (value.getD .null) := by
      rcases h property with hfresh | ⟨value', hvalue', hadmits⟩
      · rw [hfresh]
        exact ScalarPropertyConstraint.admits_unconstrained
      · cases hvalue.symm.trans hvalue'
        exact hadmits
    obtain ⟨next, hnext, hadmits'⟩ := ScalarUpdate.apply_admits hadmits hholds
    refine ⟨Function.update constraints property next, by simp [hnext], fun other => ?_⟩
    by_cases hother : other = property
    · subst hother
      rw [Function.update_self]
      exact .inr ⟨value, hvalue, hadmits'⟩
    · rw [Function.update_of_ne hother]
      exact h other

theorem atomicPredicate_possible (htrue : predicate.eval row = .ok true) :
    atomicPredicateIsStaticallyImpossible predicate = false := by
  have heffect := atomicEffect_sound htrue
  unfold atomicPredicateIsStaticallyImpossible
  cases hcase : atomicEffect predicate with
  | impossible =>
    rw [hcase] at heffect
    exact heffect.elim
  | unconstrained => rfl
  | update property update =>
    rw [hcase] at heffect
    obtain ⟨value, _, hholds⟩ := heffect
    obtain ⟨next, hnext, _⟩ :=
      ScalarUpdate.apply_admits ScalarPropertyConstraint.admits_unconstrained hholds
    simp [hnext]

theorem static_ne_false (htrue : predicate.eval row = .ok true) :
    (staticPredicateValue predicate == some false) = false := by
  rw [beq_eq_false_iff_ne]
  intro hstatic
  exact absurd (eval_of_staticPredicateValue hstatic htrue) (by simp)

mutual

/-- **A true predicate is not statically impossible.** -/
theorem predicate_possible : ∀ {predicate : Predicate}, predicate.eval row = .ok true →
    predicateIsStaticallyImpossible predicate = false
  | .and predicates, htrue => by
    obtain ⟨next, hnext, _⟩ := addConjunctiveConstraints_admits
      (evalJunction_eq_all.mp htrue) (fun _ => .inl rfl)
    rw [predicateIsStaticallyImpossible, static_ne_false htrue, hnext]
    rfl
  | .or predicates, htrue => by
    obtain ⟨before, p, after, hsplit, _, hp⟩ := evalJunction_eq_not.mp htrue
    have hmem : p ∈ predicates := by rw [hsplit]; simp
    rw [predicateIsStaticallyImpossible, static_ne_false htrue, Bool.false_or,
      exists_possible ⟨p, hmem, hp⟩, Bool.and_false]
  | .compare _ _ _, htrue | .between _ _ _, htrue | .hasKey _, htrue | .isNull _, htrue
  | .isNotNull _, htrue | .stringTest _ _ _, htrue | .isIn _ _, htrue | .not _, htrue => by
    rw [predicateIsStaticallyImpossible, static_ne_false htrue, Bool.false_or]
    · exact atomicPredicate_possible htrue
    -- neither overlapping pattern is this constructor
    all_goals exact fun _ h => nomatch h

theorem exists_possible : ∀ {predicates : List Predicate},
    (∃ p ∈ predicates, p.eval row = .ok true) → allStaticallyImpossible predicates = false
  | [], h => by simp at h
  | predicate :: predicates, h => by
    rw [allStaticallyImpossible]
    rcases List.exists_mem_cons_iff .. |>.mp h with htrue | h
    · rw [predicate_possible htrue, Bool.false_and]
    · rw [exists_possible h, Bool.and_false]

/-- A true conjunct adds its constraints without contradiction. -/
theorem addConjunctiveConstraint_admits : ∀ {predicate : Predicate}
    {constraints : PropertyConstraints}, predicate.eval row = .ok true →
      constraints.Admit row → ∃ next, addConjunctiveConstraint predicate constraints = some next ∧
        PropertyConstraints.Admit next row
  | .and predicates, constraints, htrue, h => by
    rw [addConjunctiveConstraint]
    exact addConjunctiveConstraints_admits (evalJunction_eq_all.mp htrue) h
  | .or predicates, constraints, htrue, h => by
    obtain ⟨before, p, after, hsplit, _, hp⟩ := evalJunction_eq_not.mp htrue
    have hmem : p ∈ predicates := by rw [hsplit]; simp
    rw [addConjunctiveConstraint, exists_possible ⟨p, hmem, hp⟩, Bool.and_false,
      if_neg Bool.false_ne_true]
    exact ⟨constraints, rfl, h⟩
  | .compare _ _ _, _, htrue, h | .between _ _ _, _, htrue, h | .hasKey _, _, htrue, h
  | .isNull _, _, htrue, h | .isNotNull _, _, htrue, h | .stringTest _ _ _, _, htrue, h
  | .isIn _ _, _, htrue, h | .not _, _, htrue, h => by
    rw [addConjunctiveConstraint]
    · exact addAtomicConstraint_admits h htrue
    all_goals exact fun _ h => nomatch h

theorem addConjunctiveConstraints_admits : ∀ {predicates : List Predicate}
    {constraints : PropertyConstraints}, (∀ p ∈ predicates, p.eval row = .ok true) →
      constraints.Admit row →
        ∃ next, addConjunctiveConstraints predicates constraints = some next ∧
          PropertyConstraints.Admit next row
  | [], constraints, _, h => ⟨constraints, by rw [addConjunctiveConstraints], h⟩
  | predicate :: predicates, constraints, htrue, h => by
    rw [List.forall_mem_cons] at htrue
    obtain ⟨mid, hmid, hadmit⟩ := addConjunctiveConstraint_admits htrue.1 h
    obtain ⟨next, hnext, hadmit'⟩ := addConjunctiveConstraints_admits htrue.2 hadmit
    exact ⟨next, by rw [addConjunctiveConstraints, hmid, bind_some, hnext], hadmit'⟩

end

/-- **A statically impossible predicate is never true.** -/
theorem eval_of_staticallyImpossible {v : Bool}
    (h : predicateIsStaticallyImpossible predicate = true) (heval : predicate.eval row = .ok v) :
    v = false := by
  cases v with
  | false => rfl
  | true => exact absurd (predicate_possible heval) (by simp [h])

end HelixDb.Planner
