/-
  HelixDb.Planner.LabelScope

  **LABEL SCOPES** of predicates.

  An equality of `$label` with a string literal scopes a predicate to that label.
  A conjunction of two different labels is impossible; a disjunction keeps a
  label only when every feasible branch has it.

    • `labelScope_sound` — a true predicate's row is within the scope.
-/
import HelixDb.Planner.Predicate

namespace HelixDb.Planner

open HelixDb.Lib
open HelixDb.Ast (PropertyValue)

/-! ## §1. Scopes. -/

/-- The names the planner checks. -/
inductive NameField where
  | label
deriving DecidableEq

/-- The `PlannerError` of an empty name. -/
inductive PlannerError where
  | invalidEmptyName (field : NameField)
deriving DecidableEq

/-- `NonEmptyString`: a label never is the empty string. -/
abbrev NonEmptyString := { label : String // label ≠ "" }

/-- The empty string is refused. -/
def NonEmptyString.new (value : String) : Option NonEmptyString :=
  if h : value ≠ "" then some ⟨value, h⟩ else none

/-- The labels a predicate allows. -/
inductive FeasibleLabelScope where
  | unscoped
  | scoped (label : NonEmptyString)
deriving DecidableEq

/-- The labels, or that there are none. -/
inductive LabelScope where
  | impossible
  | feasible (scope : FeasibleLabelScope)
deriving DecidableEq

namespace FeasibleLabelScope

/-- Both at once. -/
def and : FeasibleLabelScope → FeasibleLabelScope → LabelScope
  | .unscoped, scope => .feasible scope
  | scope, .unscoped => .feasible scope
  | .scoped left, .scoped right =>
    if left = right then .feasible (.scoped left) else .impossible

/-- Either; two labels are not kept as a set. -/
def or : FeasibleLabelScope → FeasibleLabelScope → LabelScope
  | .unscoped, _ => .feasible .unscoped
  | _, .unscoped => .feasible .unscoped
  | .scoped left, .scoped right =>
    if left = right then .feasible (.scoped left) else .feasible .unscoped

end FeasibleLabelScope

namespace LabelScope

/-- Both at once. -/
def and : LabelScope → LabelScope → LabelScope
  | .impossible, _ => .impossible
  | _, .impossible => .impossible
  | .feasible left, .feasible right => left.and right

/-- Either. -/
def or : LabelScope → LabelScope → LabelScope
  | .impossible, scope => scope
  | scope, .impossible => scope
  | .feasible left, .feasible right => left.or right

end LabelScope

/-! ## §2. The scope of a predicate. -/

/-- A property against a string, in either order. -/
def propertyLiteralString : Expr → Expr → Option (String × String)
  | .property property, .constant (.string value) => some (property, value)
  | .constant (.string value), .property property => some (property, value)
  | _, _ => none

mutual

/-- `label_scope`. -/
def labelScope : Predicate → Except PlannerError LabelScope
  | .compare left .eq right =>
    match (propertyLiteralString left right).filter fun atom => atom.1 == "$label" with
    | some (_, value) =>
      match NonEmptyString.new value with
      | some label => .ok (.feasible (.scoped label))
      | none => .error (.invalidEmptyName .label)
    | none => .ok (.feasible .unscoped)
  | .and predicates => conjunctionScope (.feasible .unscoped) predicates
  | .or predicates => do
    let scope ← disjunctionScope none predicates
    pure (scope.getD (.feasible .unscoped))
  | .compare _ _ _ | .between _ _ _ | .hasKey _ | .isNull _ | .isNotNull _ | .stringTest _ _ _
  | .isIn _ _ | .not _ => .ok (.feasible .unscoped)

/-- The fold over a conjunction's children. -/
def conjunctionScope (scope : LabelScope) : List Predicate → Except PlannerError LabelScope
  | [] => .ok scope
  | predicate :: predicates => do
    let next ← labelScope predicate
    conjunctionScope (scope.and next) predicates

/-- The fold over a disjunction's children; `none` before the first one. -/
def disjunctionScope (scope : Option LabelScope) :
    List Predicate → Except PlannerError (Option LabelScope)
  | [] => .ok scope
  | predicate :: predicates => do
    let next ← labelScope predicate
    let scope := match scope with
      | some scope => scope.or next
      | none => next
    disjunctionScope (some scope) predicates

end

/-! ## §3. Rows within a scope. -/

section Holds

variable {ε : Type} (row : Row ε)

/-- The row carries the scope's label. -/
def FeasibleLabelScope.Holds : FeasibleLabelScope → Prop
  | .unscoped => True
  | .scoped label => row.property "$label" = .ok (some (.string label))

/-- The rows in a scope. -/
def LabelScope.Holds : LabelScope → Prop
  | .impossible => False
  | .feasible scope => scope.Holds row

variable {row}

namespace FeasibleLabelScope

theorem and_holds : ∀ {left right : FeasibleLabelScope}, left.Holds row → right.Holds row →
    (left.and right).Holds row
  | .unscoped, _, _, hright => hright
  | .scoped _, .unscoped, hleft, _ => hleft
  | .scoped left, .scoped right, hleft, hright => by
    -- the row has one label, so the two are the same
    have hsame : left = right := by
      have hread := hleft.symm.trans hright
      injection hread with hread
      injection hread with hread
      injection hread with hread
      exact Subtype.ext hread
    subst hsame
    rwa [FeasibleLabelScope.and, if_pos rfl]

theorem or_holds : ∀ {left right : FeasibleLabelScope}, left.Holds row ∨ right.Holds row →
    (left.or right).Holds row
  | .unscoped, _, _ => trivial
  | .scoped _, .unscoped, _ => trivial
  | .scoped left, .scoped right, h => by
    rw [FeasibleLabelScope.or]
    split
    next hsame =>
      subst hsame
      exact h.elim id id
    next => trivial

end FeasibleLabelScope

namespace LabelScope

theorem and_holds : ∀ {left right : LabelScope}, left.Holds row → right.Holds row →
    (left.and right).Holds row
  | .feasible _, .feasible _, hleft, hright => FeasibleLabelScope.and_holds hleft hright

theorem or_holds : ∀ {left right : LabelScope}, left.Holds row ∨ right.Holds row →
    (left.or right).Holds row
  | .impossible, _, h => h.resolve_left id
  | .feasible _, .impossible, h => h.resolve_right id
  | .feasible _, .feasible _, h => FeasibleLabelScope.or_holds h

end LabelScope

/-! ## §4. Soundness. -/

theorem eqValue_string {x : Property.PropertyValue} {s : String}
    (h : x.eqValue (.string s) = true) : x = .string s := by
  cases x <;> simp [Property.PropertyValue.eqValue, Property.PropertyValue.isNumeric] at h
  rw [h]

/-- A property equal to a string literal is present with that string. -/
theorem property_of_string_compare {left right : Expr} {property value : String}
    (h : propertyLiteralString left right = some (property, value))
    (htrue : (Predicate.compare left .eq right).eval row = .ok true) :
    row.property property = .ok (some (.string value)) := by
  have hread : ∀ x, (Expr.property property).eval row = .ok x → x.eqValue (.string value) = true →
      row.property property = .ok (some (.string value)) := by
    intro x hx heq
    obtain ⟨stored, hstored, hx⟩ := except_bind_ok hx
    cases hx
    rw [hstored]
    cases stored with
    | none => exact absurd (eqValue_string heq) nofun
    | some stored => rw [show stored = .string value from eqValue_string heq]
  obtain ⟨x, hx, htrue⟩ := except_bind_ok htrue
  obtain ⟨y, hy, htrue⟩ := except_bind_ok htrue
  have heq : x.eqValue y = true := Except.ok.inj htrue
  unfold propertyLiteralString at h
  split at h
  next =>
    cases h
    cases hy
    exact hread x hx heq
  next =>
    cases h
    cases hx
    exact hread y hy (Property.PropertyValue.eqValue_symm heq)
  next => cases h

theorem labelScope_compare_holds {left right : Expr} {scope : LabelScope}
    (h : labelScope (.compare left .eq right) = .ok scope)
    (htrue : (Predicate.compare left .eq right).eval row = .ok true) : scope.Holds row := by
  rw [labelScope] at h
  split at h
  next property value hatom =>
    obtain ⟨hatom, hlabel⟩ := Option.filter_eq_some_iff.mp hatom
    have hlabel : property = "$label" := by simpa using hlabel
    subst hlabel
    unfold NonEmptyString.new at h
    split at h
    next label hnew =>
      cases h
      split at hnew <;> cases hnew
      exact property_of_string_compare hatom htrue
    next => cases h
  next =>
    cases h
    trivial

mutual

/-- **A true predicate's row is within its label scope.** -/
theorem labelScope_sound : ∀ {predicate : Predicate} {scope : LabelScope},
    labelScope predicate = .ok scope → predicate.eval row = .ok true → scope.Holds row
  | .compare _ .eq _, _, h, htrue => labelScope_compare_holds h htrue
  | .and _, _, h, htrue => by
    exact conjunctionScope_sound h trivial (Predicate.evalJunction_eq_all.mp htrue)
  | .or predicates, _, h, htrue => by
    obtain ⟨before, p, after, hsplit, _, hp⟩ := Predicate.evalJunction_eq_not.mp htrue
    have hmem : p ∈ predicates := by rw [hsplit]; simp
    obtain ⟨found, hfound, h⟩ := except_bind_ok h
    obtain ⟨scope, rfl, hscope⟩ := disjunctionScope_sound hfound (.inr ⟨p, hmem, hp⟩)
    cases h
    exact hscope
  | .compare _ .neq _, _, h, _ | .compare _ .gt _, _, h, _ | .compare _ .gte _, _, h, _
  | .compare _ .lt _, _, h, _ | .compare _ .lte _, _, h, _ | .between _ _ _, _, h, _
  | .hasKey _, _, h, _ | .isNull _, _, h, _ | .isNotNull _, _, h, _ | .stringTest _ _ _, _, h, _
  | .isIn _ _, _, h, _ | .not _, _, h, _ => by
    simp only [labelScope, Except.ok.injEq] at h
    subst h
    trivial

theorem conjunctionScope_sound : ∀ {predicates : List Predicate} {scope result : LabelScope},
    conjunctionScope scope predicates = .ok result → scope.Holds row →
      (∀ p ∈ predicates, p.eval row = .ok true) → result.Holds row
  | [], _, _, h, hscope, _ => by
    cases h
    exact hscope
  | predicate :: predicates, _, _, h, hscope, htrue => by
    rw [List.forall_mem_cons] at htrue
    obtain ⟨next, hnext, h⟩ := except_bind_ok h
    have hheld := LabelScope.and_holds hscope (labelScope_sound hnext htrue.1)
    exact conjunctionScope_sound h hheld htrue.2

theorem disjunctionScope_sound : ∀ {predicates : List Predicate} {scope result : Option LabelScope},
    disjunctionScope scope predicates = .ok result →
      (∃ s, scope = some s ∧ s.Holds row) ∨ (∃ p ∈ predicates, p.eval row = .ok true) →
        ∃ s, result = some s ∧ s.Holds row
  | [], _, _, h, htrue => by
    cases h
    exact htrue.resolve_right (by simp)
  | predicate :: predicates, scope, _, h, htrue => by
    obtain ⟨next, hnext, h⟩ := except_bind_ok h
    refine disjunctionScope_sound h ?_
    rw [List.exists_mem_cons_iff] at htrue
    rcases htrue with ⟨s, rfl, hs⟩ | htrue | htrue
    · exact .inl ⟨_, rfl, LabelScope.or_holds (.inl hs)⟩
    · have hheld := labelScope_sound hnext htrue
      cases scope with
      | none => exact .inl ⟨_, rfl, hheld⟩
      | some s => exact .inl ⟨_, rfl, LabelScope.or_holds (.inr hheld)⟩
    · exact .inr htrue

end

end Holds

end HelixDb.Planner
