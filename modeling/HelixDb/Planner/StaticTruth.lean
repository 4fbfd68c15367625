/-
  HelixDb.Planner.StaticTruth

  **STATIC TRUTH OF A PREDICATE.**

  Comparisons, ranges, string tests and memberships of literals are decided when
  the plan is built; a junction is decided by one deciding child or by all its
  children.  Whatever the planner decides, a run that does not fail answers.

    • `eval_of_staticPredicateValue` — static values are the evaluator's.
-/
import HelixDb.Planner.Predicate

namespace HelixDb.Planner

open HelixDb.Lib Option
open LiteralCollection (new items contains_eq_any)
open HelixDb.Ast (PropertyValue)

/-! ## §1. The analysis. -/

/-- Equality of literals that equal themselves. -/
def staticEqValue : Expr → Expr → Option Bool
  | .constant left, .constant right =>
    if propertyValueHasReflexiveEquality left && propertyValueHasReflexiveEquality right then
      some (propertyValuesEqual left right)
    else none
  | _, _ => none

/-- The order of literals. -/
def staticOrderValue (op : CompareOp) : Expr → Expr → Option Bool
  | .constant left, .constant right => (propertyValueOrdering left right).map op.ofOrdering
  | _, _ => none

/-- A literal between two others; the upper end is read only when needed. -/
def staticBetweenValue : Expr → Expr → Expr → Option Bool
  | .constant value, .constant min, .constant max => do
    let lower ← propertyValueOrdering value min
    if !CompareOp.gte.ofOrdering lower then some false
    else
      let upper ← propertyValueOrdering value max
      some (CompareOp.lte.ofOrdering upper)
  | _, _, _ => none

/-- A string test of literals. -/
def staticStringPredicate (op : StringOp) : Expr → Expr → Option Bool
  | .constant (.string value), .constant (.string expected) => some (op.test value expected)
  | _, _ => none

/-- Membership of a literal. -/
def staticInValue : Expr → Expr → Option Bool
  | .constant value, .constant values =>
    if propertyValueHasReflexiveEquality value then
      (new values).map fun values => values.contains value
    else none
  | _, _ => none

mutual

/-- `static_predicate_value`: the value of a predicate that no row changes. -/
def staticPredicateValue : Predicate → Option Bool
  | .compare left .eq right => staticEqValue left right
  | .compare left .neq right => (staticEqValue left right).map fun value => !value
  | .compare left op right => staticOrderValue op left right
  | .between value min max => staticBetweenValue value min max
  | .stringTest op value expected => staticStringPredicate op value expected
  | .isIn value values => staticInValue value values
  | .and predicates => if predicates.isEmpty then none else staticJunction true true predicates
  | .or predicates => if predicates.isEmpty then none else staticJunction false true predicates
  | .not predicate => (staticPredicateValue predicate).map fun value => !value
  | .hasKey _ | .isNull _ | .isNotNull _ => none

/-- The loop over a junction's children; `known` is cleared by an undecided one. -/
def staticJunction (all known : Bool) : List Predicate → Option Bool
  | [] => if known then some all else none
  | predicate :: predicates =>
    match staticPredicateValue predicate with
    | some value =>
      if value = all then staticJunction all known predicates else some value
    | none => staticJunction all false predicates

end

/-! ## §2. Soundness. -/

/-- Membership in a literal collection is equality with one of its items. -/
theorem propertyValueIsIn_items {values : PropertyValue} {collection : LiteralCollection}
    (h : new values = some collection) (x : Property.PropertyValue) :
    propertyValueIsIn x values.astToDbValue =
      collection.items.any fun item => item.astToDbValue.eqValue x := by
  cases values <;> simp only [new, reduceCtorEq] at h
  case array xs =>
    split_ifs at h
    cases h
    simp only [items, PropertyValue.astToDbValue, propertyValueIsIn,
      PropertyValue.astToDbValues_eq_map, List.any_map, Function.comp_def]
  case i64Array xs | stringArray xs =>
    cases h
    simp only [items, PropertyValue.astToDbValue, propertyValueIsIn,
      List.any_map, Function.comp_def]
  case f64Array xs | f32Array xs =>
    split_ifs at h
    cases h
    simp only [items, PropertyValue.astToDbValue, propertyValueIsIn,
      List.any_map, Function.comp_def]

variable {b v : Bool} {left right : Expr}

section Sound

variable {ε : Type} {row : Row ε}

theorem Expr.eval_constant {value : PropertyValue} {x : Property.PropertyValue}
    (h : (Expr.constant value).eval row = .ok x) : x = value.astToDbValue := by
  cases h
  rfl

/-- An evaluated comparison has evaluated both sides. -/
theorem Predicate.eval_compare {op : CompareOp}
    (h : (Predicate.compare left op right).eval row = .ok v) :
    ∃ x y, left.eval row = .ok x ∧ right.eval row = .ok y ∧ v = op.eval x y := by
  obtain ⟨x, hx, h⟩ := except_bind_ok h
  obtain ⟨y, hy, h⟩ := except_bind_ok h
  cases h
  exact ⟨x, y, hx, hy, rfl⟩

theorem staticEqValue_sound (h : staticEqValue left right = some b)
    {x y : Property.PropertyValue} (hx : left.eval row = .ok x) (hy : right.eval row = .ok y) :
    x.eqValue y = b := by
  unfold staticEqValue at h
  split at h
  next l r =>
    split_ifs at h
    cases h
    rw [Expr.eval_constant hx, Expr.eval_constant hy, propertyValuesEqual_eq]
  next => cases h

theorem staticOrderValue_sound {op : CompareOp}
    (h : staticOrderValue op left right = some b) {x y : Property.PropertyValue}
    (hx : left.eval row = .ok x) (hy : right.eval row = .ok y) :
    (x.compare y).any op.ofOrdering = b := by
  unfold staticOrderValue at h
  split at h
  next l r =>
    obtain ⟨o, ho, rfl⟩ := map_eq_some_iff.mp h
    rw [propertyValueOrdering_eq] at ho
    rw [Expr.eval_constant hx, Expr.eval_constant hy, ho]
    rfl
  next => cases h

theorem eval_of_staticCompare {op : CompareOp}
    (hstatic : staticPredicateValue (.compare left op right) = some b)
    (h : (Predicate.compare left op right).eval row = .ok v) : v = b := by
  obtain ⟨x, y, hx, hy, rfl⟩ := Predicate.eval_compare h
  cases op with
  | eq =>
    exact staticEqValue_sound hstatic hx hy
  | neq =>
    obtain ⟨e, he, rfl⟩ := map_eq_some_iff.mp hstatic
    exact congrArg (!·) (staticEqValue_sound he hx hy)
  | gt | gte | lt | lte =>
    exact staticOrderValue_sound hstatic hx hy

theorem eval_of_staticBetween {value min max : Expr}
    (hstatic : staticBetweenValue value min max = some b)
    (h : (Predicate.between value min max).eval row = .ok v) : v = b := by
  unfold staticBetweenValue at hstatic
  split at hstatic
  next value min max =>
    obtain ⟨x, hx, h⟩ := except_bind_ok h
    obtain ⟨lo, hlo, h⟩ := except_bind_ok h
    rw [Expr.eval_constant hx, Expr.eval_constant hlo, ← propertyValueOrdering_eq] at h
    obtain ⟨lower, hlower, hstatic⟩ := bind_eq_some_iff.mp hstatic
    rw [hlower, any_some] at h
    cases hgte : CompareOp.gte.ofOrdering lower with
    | false =>
      rw [hgte] at h hstatic
      cases h
      cases hstatic
      rfl
    | true =>
      rw [hgte] at h
      rw [hgte] at hstatic
      obtain ⟨upper, hupper, hstatic⟩ := bind_eq_some_iff.mp hstatic
      obtain ⟨hi, hhi, h⟩ := except_bind_ok h
      rw [Expr.eval_constant hhi, ← propertyValueOrdering_eq, hupper] at h
      cases h
      cases hstatic
      rfl
  next => cases hstatic

theorem eval_of_staticString {op : StringOp} {value expected : Expr}
    (hstatic : staticStringPredicate op value expected = some b)
    (h : (Predicate.stringTest op value expected).eval row = .ok v) : v = b := by
  unfold staticStringPredicate at hstatic
  split at hstatic
  next value expected =>
    obtain ⟨x, hx, h⟩ := except_bind_ok h
    obtain ⟨y, hy, h⟩ := except_bind_ok h
    rw [Expr.eval_constant hx, Expr.eval_constant hy] at h
    cases h
    cases hstatic
    rfl
  next => cases hstatic

theorem eval_of_staticIn {value values : Expr}
    (hstatic : staticInValue value values = some b)
    (h : (Predicate.isIn value values).eval row = .ok v) : v = b := by
  unfold staticInValue at hstatic
  split at hstatic
  next value values =>
    split_ifs at hstatic
    obtain ⟨x, hx, h⟩ := except_bind_ok h
    obtain ⟨y, hy, h⟩ := except_bind_ok h
    obtain ⟨collection, hcollection, rfl⟩ := map_eq_some_iff.mp hstatic
    rw [Expr.eval_constant hx, Expr.eval_constant hy, propertyValueIsIn_items hcollection] at h
    cases h
    simp only [contains_eq_any, propertyValuesEqual_eq]
  next => cases hstatic

/-- Once a child is undecided, only a deciding child can answer. -/
theorem staticJunction_unknown {all b : Bool} {predicates : List Predicate}
    (h : staticJunction all false predicates = some b) : b ≠ all := by
  induction predicates with
  | nil => cases h
  | cons predicate predicates ih =>
    rw [staticJunction] at h
    split at h
    next value _ =>
      split at h
      next => exact ih h
      next hdiffer =>
        cases h
        exact hdiffer
    next => exact ih h

mutual

/-- **A statically decided predicate evaluates to the decided value**, wherever its
evaluation does not fail. -/
theorem eval_of_staticPredicateValue : ∀ {predicate : Predicate} {b v : Bool},
    staticPredicateValue predicate = some b → predicate.eval row = .ok v → v = b
  | .compare _ _ _, _, _, hstatic, h => eval_of_staticCompare hstatic h
  | .between _ _ _, _, _, hstatic, h => eval_of_staticBetween hstatic h
  | .stringTest _ _ _, _, _, hstatic, h => eval_of_staticString hstatic h
  | .isIn _ _, _, _, hstatic, h => eval_of_staticIn hstatic h
  | .and predicates, b, v, hstatic, h | .or predicates, b, v, hstatic, h => by
    simp only [staticPredicateValue, ite_none_left_eq_some] at hstatic
    exact evalJunction_of_staticJunction hstatic.2 h
  | .not predicate, b, v, hstatic, h => by
    obtain ⟨c, hc, rfl⟩ := map_eq_some_iff.mp hstatic
    obtain ⟨w, hw, h⟩ := except_bind_ok h
    cases h
    exact congrArg (!·) (eval_of_staticPredicateValue hc hw)
  | .hasKey _, _, _, hstatic, _ | .isNull _, _, _, hstatic, _
  | .isNotNull _, _, _, hstatic, _ => by cases hstatic

theorem evalJunction_of_staticJunction : ∀ {predicates : List Predicate} {all known b v : Bool},
    staticJunction all known predicates = some b →
      Predicate.evalJunction row all predicates = .ok v → v = b
  | [], all, known, b, v, hstatic, h => by
    simp only [staticJunction, ite_none_right_eq_some, Option.some.injEq] at hstatic
    cases h
    exact hstatic.2
  | predicate :: predicates, all, known, b, v, hstatic, h => by
    rw [staticJunction] at hstatic
    rw [Predicate.evalJunction_cons] at h
    split at hstatic
    next value hvalue =>
      split at hstatic
      next hsame =>
        subst hsame
        rcases h with ⟨hchild, _⟩ | ⟨_, hrest⟩
        · exact absurd (eval_of_staticPredicateValue hvalue hchild) (by simp)
        · exact evalJunction_of_staticJunction hstatic hrest
      next hdiffer =>
        cases hstatic
        rcases h with ⟨hchild, rfl⟩ | ⟨hchild, _⟩
        · exact eval_of_staticPredicateValue hvalue hchild
        · exact absurd (eval_of_staticPredicateValue hvalue hchild).symm hdiffer
    next =>
      rcases h with ⟨_, rfl⟩ | ⟨_, hrest⟩
      · -- the run stops here
        exact (Bool.eq_not.mpr (staticJunction_unknown hstatic)).symm
      · exact evalJunction_of_staticJunction hstatic hrest

end

end Sound

end HelixDb.Planner
