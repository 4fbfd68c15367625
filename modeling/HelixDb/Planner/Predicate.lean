/-
  HelixDb.Planner.Predicate

  **NATIVE PREDICATES** and their evaluation on a row.

  A predicate is lowered node by node to a resolved expression and evaluated on
  a row.  Comparisons evaluate both sides; a conjunction and a disjunction stop
  at the first child that decides; a range test looks at its upper bound only if
  the lower one passes.  Reading a property or computing an expression can fail,
  and the failure is the result.

  The six named comparisons and `Compare` lower alike and are one constructor
  here, as are the three string tests.  Expressions other than a property and a
  literal (identifiers, the clock, parameters, arithmetic, conditionals) are not
  looked into by any analysis: each occurrence is a numbered computation, whose
  value the row gives.

    • `Predicate.evalJunction_eq_all`, `Predicate.evalJunction_eq_not` — what a
      junction that does not fail has seen.
-/
import HelixDb.Planner.Literal
import HelixDb.Lib.FoldM

namespace HelixDb.Planner

open HelixDb.Lib
open HelixDb.Ast (PropertyValue)

/-! ## §1. Predicates. -/

/-- The comparison operators. -/
inductive CompareOp where
  | eq | neq | gt | gte | lt | lte
deriving DecidableEq

/-- The string tests. -/
inductive StringOp where
  | startsWith | endsWith | contains
deriving DecidableEq

/-- What the planner sees of an expression. -/
inductive Expr where
  | property (name : String)
  | constant (value : PropertyValue)
  | computed (occurrence : Nat)

/-- The predicates of a filter. -/
inductive Predicate where
  | compare (left : Expr) (op : CompareOp) (right : Expr)
  | between (value min max : Expr)
  | hasKey (property : String)
  | isNull (property : String)
  | isNotNull (property : String)
  | stringTest (op : StringOp) (value expected : Expr)
  | isIn (value values : Expr)
  | and (predicates : List Predicate)
  | or (predicates : List Predicate)
  | not (predicate : Predicate)

/-! ## §2. Rows and expressions. -/

/-- What one evaluation reads: properties of the row's element, present or
missing, and the values of computed expressions. -/
structure Row (ε : Type) where
  property : String → Except ε (Option Property.PropertyValue)
  computed : Nat → Except ε Property.PropertyValue

variable {ε : Type} (row : Row ε)

/-- `eval_resolved` of a scalar: a missing property is null. -/
def Expr.eval : Expr → Except ε Property.PropertyValue
  | .property name => do
    let value ← row.property name
    pure (value.getD .null)
  | .constant value => pure value.astToDbValue
  | .computed occurrence => row.computed occurrence

/-- `Greater | Equal`, `Less | Equal` and the strict ones, on a comparison that
may be undefined. -/
def CompareOp.ofOrdering : CompareOp → Ordering → Bool
  | .gt, o => o == .gt
  | .gte, o => o == .gt || o == .eq
  | .lt, o => o == .lt
  | .lte, o => o == .lt || o == .eq
  | .eq, _ | .neq, _ => false

/-- A comparison of stored values. -/
def CompareOp.eval (op : CompareOp) (left right : Property.PropertyValue) : Bool :=
  match op with
  | .eq => left.eqValue right
  | .neq => !left.eqValue right
  | op => (left.compare right).any op.ofOrdering

/-- `starts_with`, `ends_with` and `contains` of two strings. -/
def StringOp.test (op : StringOp) (value expected : String) : Bool :=
  match op with
  | .startsWith => expected.toList.isPrefixOf value.toList
  | .endsWith => expected.toList.isSuffixOf value.toList
  | .contains => value.toList.tails.any expected.toList.isPrefixOf

/-- A test of stored values; other kinds fail it. -/
def StringOp.eval (op : StringOp) (left right : Property.PropertyValue) : Bool :=
  match left, right with
  | .string value, .string expected => op.test value expected
  | _, _ => false

/-- `property_value_is_in`: equality with an item of an array, or with a scalar. -/
def propertyValueIsIn (value : Property.PropertyValue) : Property.PropertyValue → Bool
  | .array values => values.any fun item => item.eqValue value
  | .i64Array values => values.any fun item => (Property.PropertyValue.i64 item).eqValue value
  | .f64Array values => values.any fun item => (Property.PropertyValue.f64 item).eqValue value
  | .f32Array values =>
    values.any fun item => (Property.PropertyValue.f32 (Ast.f64FromF32 item)).eqValue value
  | .stringArray values =>
    values.any fun item => (Property.PropertyValue.string item).eqValue value
  | other => other.eqValue value

/-! ## §3. Evaluation. -/

variable {predicates : List Predicate}

namespace Predicate

mutual

/-- `eval_resolved` of a lowered predicate. -/
def eval : Predicate → Except ε Bool
  | .compare left op right => do
    let left ← left.eval row
    let right ← right.eval row
    pure (op.eval left right)
  | .between value min max => do
    let value ← value.eval row
    let min ← min.eval row
    if (value.compare min).any CompareOp.gte.ofOrdering then do
      let max ← max.eval row
      pure ((value.compare max).any CompareOp.lte.ofOrdering)
    else pure false
  | .hasKey property => do
    let value ← row.property property
    pure value.isSome
  | .isNull property => do
    let value ← (Expr.property property).eval row
    pure (match value with | .null => true | _ => false)
  | .isNotNull property => do
    let value ← (Expr.property property).eval row
    pure (match value with | .null => false | _ => true)
  | .stringTest op value expected => do
    let value ← value.eval row
    let expected ← expected.eval row
    pure (op.eval value expected)
  | .isIn value values => do
    let value ← value.eval row
    let values ← values.eval row
    pure (propertyValueIsIn value values)
  | .and predicates => evalJunction true predicates
  | .or predicates => evalJunction false predicates
  | .not predicate => do
    let value ← predicate.eval
    pure !value

/-- `All` and `Any`: the first child that differs from `all` decides. -/
def evalJunction (all : Bool) : List Predicate → Except ε Bool
  | [] => pure all
  | predicate :: predicates => do
    let value ← predicate.eval
    if value ≠ all then pure value else evalJunction all predicates

end

variable {row}

theorem evalJunction_cons {all v : Bool} {predicate : Predicate} :
    evalJunction row all (predicate :: predicates) = .ok v ↔
      predicate.eval row = .ok (!all) ∧ v = !all ∨
        predicate.eval row = .ok all ∧ evalJunction row all predicates = .ok v := by
  constructor
  · intro h
    obtain ⟨w, hw, h⟩ := except_bind_ok h
    by_cases hwall : w = all
    · subst hwall
      rw [if_neg (not_not_intro rfl)] at h
      exact .inr ⟨hw, h⟩
    · rw [if_pos hwall] at h
      cases h
      have hv : v = !all := by
        cases v <;> cases all <;> first | rfl | exact absurd rfl hwall
      exact .inl ⟨hv ▸ hw, hv⟩
  · rintro (⟨hw, rfl⟩ | ⟨hw, h⟩)
    · rw [evalJunction, hw]
      cases all <;> rfl
    · rw [evalJunction, hw]
      show (if all ≠ all then _ else _) = _
      rwa [if_neg (not_not_intro rfl)]

/-- A junction keeps its default exactly when every child does. -/
theorem evalJunction_eq_all {all : Bool} :
    evalJunction row all predicates = .ok all ↔ ∀ p ∈ predicates, p.eval row = .ok all := by
  induction predicates with
  | nil => simp [evalJunction, pure, Except.pure]
  | cons predicate predicates ih =>
    rw [evalJunction_cons, ih, List.forall_mem_cons]
    constructor
    · rintro (⟨_, h⟩ | h)
      · exact absurd h (by simp)
      · exact h
    · exact .inr

/-- A decided junction was decided by a child that was reached. -/
theorem evalJunction_eq_not {all : Bool} :
    evalJunction row all predicates = .ok (!all) ↔
      ∃ before p after, predicates = before ++ p :: after ∧
        (∀ q ∈ before, q.eval row = .ok all) ∧ p.eval row = .ok (!all) := by
  induction predicates with
  | nil => simp [evalJunction, pure, Except.pure]
  | cons predicate predicates ih =>
    rw [evalJunction_cons, ih]
    constructor
    · rintro (⟨h, _⟩ | ⟨h, before, p, after, rfl, hbefore, hp⟩)
      · exact ⟨[], predicate, predicates, rfl, by simp, h⟩
      · exact ⟨predicate :: before, p, after, rfl, List.forall_mem_cons.mpr ⟨h, hbefore⟩, hp⟩
    · rintro ⟨before, p, after, hsplit, hbefore, hp⟩
      cases before with
      | nil =>
        cases hsplit
        exact .inl ⟨hp, rfl⟩
      | cons first before =>
        cases hsplit
        rw [List.forall_mem_cons] at hbefore
        exact .inr ⟨hbefore.1, before, p, after, rfl, hbefore.2, hp⟩

end Predicate

end HelixDb.Planner
