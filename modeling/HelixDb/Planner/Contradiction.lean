/-
  HelixDb.Planner.Contradiction

  **STATIC CONTRADICTION PROOFS** for intersections of node access sets.

  An intersection is reported empty when one of its plans is, or when two of
  them cannot share a node: two equality lookups of one key with different
  literals, or an equality lookup whose literal a range excludes.  Unions must
  fail in every branch, intersections in one.

  The literals are compared by structure.  An equality lookup serves the numbers
  equal to its literal in any width, so `1` and `1.0` are different literals with
  the same nodes.  Only lookups that an intersection brings together are compared;
  the branches of a union are not.

    • `contradiction_sound` — what the recursion proves of empty plans, of pairs and
      of intersections;
    • `hasStaticContradiction_sound` — the report is right when no intersection
      brings together two forms of one number, and, for two lookups of one key,
      only then.
-/
import HelixDb.Planner.Access

namespace HelixDb.Planner

open HelixDb.Lib NodeAccessPlan List
open HelixDb.Ast (PropertyValue)

/-! ## §1. The rule. -/

/-- `literal_equality_parts`: the key and the literal of an equality lookup. -/
def literalEqualityParts : NodeAccessPlan → Option (ScopedPropertyKey × SecondaryIndexLiteral)
  | .equalityIndex _ key (.literal value) => some (key, value)
  | _ => none

/-- `range_index_parts`: the key and the bounds of a range lookup. -/
def rangeIndexParts : NodeAccessPlan → Option (ScopedPropertyDirectionKey × IndexRange)
  | .rangeIndex _ key range _ => some (key, range)
  | _ => none

/-- `literal_equalities_conflict`: one key and literals that differ in structure. -/
def literalEqualitiesConflict (left right : NodeAccessPlan) : Bool :=
  match literalEqualityParts left, literalEqualityParts right with
  | some (leftKey, leftValue), some (rightKey, rightValue) =>
    leftKey == rightKey && !PropertyValue.beq leftValue.value rightValue.value
  | _, _ => false

/-- `literal_equality_range_conflict`: the range excludes the literal of the lookup. -/
def literalEqualityRangeConflict (equality range : NodeAccessPlan) : Bool :=
  match literalEqualityParts equality, rangeIndexParts range with
  | some (equalityKey, value), some (rangeKey, range) =>
    rangeKey.label == equalityKey.label && rangeKey.property == equalityKey.property &&
      range.excludesLiteral value.value
  | _, _ => false

mutual

/-- `is_statically_empty`. -/
def isStaticallyEmpty : NodeAccessPlan → Bool
  | .empty => true
  | .intersect plans => intersectionContradicts plans
  | .union plans => plans.attach.all fun ⟨child, _⟩ => isStaticallyEmpty child
  | _ => false
termination_by plan => sizeOf plan
decreasing_by
  · simp_wf
  · have := List.sizeOf_lt_of_mem ‹_›
    simp_wf
    omega

/-- The plans of an intersection, each against the later ones. -/
def intersectionContradicts : List NodeAccessPlan → Bool
  | [] => false
  | left :: rest =>
    (isStaticallyEmpty left || rest.attach.any fun ⟨right, _⟩ => plansContradict left right) ||
      intersectionContradicts rest
termination_by plans => sizeOf plans
decreasing_by
  · simp_wf
    omega
  · have := List.sizeOf_lt_of_mem ‹_›
    simp_wf
    omega
  · simp_wf

/-- `plans_contradict`: a union has to fail in every branch, an intersection in one. -/
def plansContradict (left right : NodeAccessPlan) : Bool :=
  if isStaticallyEmpty left || isStaticallyEmpty right then true
  else
    match left, right with
    | .union children, other =>
      children.attach.all fun ⟨child, _⟩ => plansContradict child other
    | other, .union children =>
      children.attach.all fun ⟨child, _⟩ => plansContradict other child
    | .intersect children, other =>
      children.attach.any fun ⟨child, _⟩ => plansContradict child other
    | other, .intersect children =>
      children.attach.any fun ⟨child, _⟩ => plansContradict other child
    | left, right =>
      literalEqualitiesConflict left right || literalEqualityRangeConflict left right ||
        literalEqualityRangeConflict right left
termination_by sizeOf left + sizeOf right
decreasing_by
  · have := right.sizeOf_pos
    omega
  · have := left.sizeOf_pos
    omega
  all_goals
    have := List.sizeOf_lt_of_mem ‹_›
    simp_wf
    omega

end

/-- `has_static_contradiction`. -/
def hasStaticContradiction : NodeAccessPlan → Bool
  | .intersect plans => intersectionContradicts plans
  | _ => false

/-! ## §2. Soundness where numbers have one form. -/

mutual

/-- The literal equality lookups of a plan. -/
def NodeAccessPlan.literalEqualities :
    NodeAccessPlan → List (ScopedPropertyKey × SecondaryIndexLiteral)
  | .equalityIndex _ key (.literal value) => [(key, value)]
  | .intersect plans | .union plans => literalEqualitiesOf plans
  | _ => []

/-- The literal equality lookups of several plans. -/
def NodeAccessPlan.literalEqualitiesOf :
    List NodeAccessPlan → List (ScopedPropertyKey × SecondaryIndexLiteral)
  | [] => []
  | plan :: plans => plan.literalEqualities ++ literalEqualitiesOf plans

end

theorem NodeAccessPlan.literalEqualities_subset {plan : NodeAccessPlan} {plans : List NodeAccessPlan}
    (h : plan ∈ plans) : plan.literalEqualities ⊆ literalEqualitiesOf plans := by
  induction plans with
  | nil => cases h
  | cons head tail ih =>
    intro entry hentry
    rw [literalEqualitiesOf, mem_append]
    rcases mem_cons.mp h with rfl | h
    · exact .inl hentry
    · exact .inr (ih h hentry)

theorem literalEqualityParts_eq {plan : NodeAccessPlan}
    {entry : ScopedPropertyKey × SecondaryIndexLiteral} (h : literalEqualityParts plan = some entry) :
    ∃ index, plan = .equalityIndex index entry.1 (.literal entry.2) := by
  unfold literalEqualityParts at h
  split at h
  · cases h
    exact ⟨_, rfl⟩
  · cases h

theorem rangeIndexParts_eq {plan : NodeAccessPlan} {key : ScopedPropertyDirectionKey}
    {range : IndexRange} (h : rangeIndexParts plan = some (key, range)) :
    ∃ index iteration, plan = .rangeIndex index key range iteration := by
  unfold rangeIndexParts at h
  split at h
  · cases h
    exact ⟨_, _, rfl⟩
  · cases h

/-- Two lookups of one key with equal literals have the same form of it. -/
def SameForm (lookup other : ScopedPropertyKey × SecondaryIndexLiteral) : Prop :=
  lookup.1 = other.1 → propertyValuesEqual lookup.2.value other.2.value = true →
    PropertyValue.beq lookup.2.value other.2.value = true

namespace NodeAccessPlan

/-- Every lookup of one plan has the same form as every lookup of the other. -/
def SameForms (left right : NodeAccessPlan) : Prop :=
  ∀ lookup ∈ left.literalEqualities, ∀ other ∈ right.literalEqualities, SameForm lookup other

mutual

/-- No intersection in the plan brings together two forms of one literal. -/
def OneForm : NodeAccessPlan → Prop
  | .intersect plans => OneFormMeet plans
  | .union plans => OneFormEach plans
  | _ => True

/-- The plans of an intersection: one form in each, and between any two. -/
def OneFormMeet : List NodeAccessPlan → Prop
  | [] => True
  | plan :: rest => plan.OneForm ∧ (∀ right ∈ rest, plan.SameForms right) ∧ OneFormMeet rest

/-- The plans of a union: one form in each. -/
def OneFormEach : List NodeAccessPlan → Prop
  | [] => True
  | plan :: rest => plan.OneForm ∧ OneFormEach rest

end

variable {plans : List NodeAccessPlan} {plan other : NodeAccessPlan}

theorem OneFormMeet.mem (h : OneFormMeet plans) (hmem : plan ∈ plans) : plan.OneForm := by
  induction plans with
  | nil => cases hmem
  | cons head tail ih =>
    obtain ⟨hhead, -, htail⟩ := h
    rcases mem_cons.mp hmem with rfl | hmem
    · exact hhead
    · exact ih htail hmem

theorem OneFormEach.mem (h : OneFormEach plans) (hmem : plan ∈ plans) : plan.OneForm := by
  induction plans with
  | nil => cases hmem
  | cons head tail ih =>
    obtain ⟨hhead, htail⟩ := h
    rcases mem_cons.mp hmem with rfl | hmem
    · exact hhead
    · exact ih htail hmem

/-- The lookups of a part are lookups of the whole. -/
theorem SameForms.left (h : ∀ lookup ∈ literalEqualitiesOf plans,
    ∀ entry ∈ other.literalEqualities, SameForm lookup entry) (hmem : plan ∈ plans) :
    plan.SameForms other :=
  fun lookup hlookup => h lookup (literalEqualities_subset hmem hlookup)

theorem SameForms.right (h : ∀ lookup ∈ other.literalEqualities,
    ∀ entry ∈ literalEqualitiesOf plans, SameForm lookup entry) (hmem : plan ∈ plans) :
    other.SameForms plan :=
  fun lookup hlookup entry hentry =>
    h lookup hlookup entry (literalEqualities_subset hmem hentry)

end NodeAccessPlan

variable {left right : SecondaryIndexLiteral}

section Soundness

variable {graph : StoredGraph} {env : Environment} {id : Nat}

/-- A node read under two literals has a value equal to both, so the literals are
equal and, in one form, the same. -/
theorem literalEqualitiesConflict_sound {left right : NodeAccessPlan}
    (hforms : left.SameForms right) (h : literalEqualitiesConflict left right = true) :
    ¬(left.reads graph env id ∧ right.reads graph env id) := by
  unfold literalEqualitiesConflict at h
  split at h
  next leftKey leftValue rightKey rightValue hl hr =>
    obtain ⟨_, rfl⟩ := literalEqualityParts_eq hl
    obtain ⟨_, rfl⟩ := literalEqualityParts_eq hr
    simp only [Bool.and_eq_true, beq_iff_eq, Bool.not_eq_eq_eq_not, Bool.not_true] at h
    obtain ⟨rfl, hdiffer⟩ := h
    rintro ⟨⟨_, _, hx⟩, ⟨_, _, hy⟩⟩
    have hsame := hforms (leftKey, leftValue) (by simp [literalEqualities]) (leftKey, rightValue)
      (by simp [literalEqualities]) rfl (propertyValuesEqual_of_common hx hy)
    exact Bool.false_ne_true (hdiffer.symm.trans hsame)
  next => exact absurd h Bool.false_ne_true

theorem literalEqualityRangeConflict_sound {equality range : NodeAccessPlan}
    (h : literalEqualityRangeConflict equality range = true) :
    ¬(equality.reads graph env id ∧ range.reads graph env id) := by
  unfold literalEqualityRangeConflict at h
  split at h
  next equalityKey value rangeKey bounds hl hr =>
    obtain ⟨_, rfl⟩ := literalEqualityParts_eq hl
    obtain ⟨_, _, rfl⟩ := rangeIndexParts_eq hr
    simp only [Bool.and_eq_true, beq_iff_eq] at h
    obtain ⟨⟨_, hproperty⟩, hexcludes⟩ := h
    rintro ⟨⟨_, _, hx⟩, ⟨_, _, y, hy, hselects⟩⟩
    rw [← hproperty, hy] at hx
    have hnot : bounds.selects env.params y = false :=
      IndexRange.not_selects_of_excludesLiteral hexcludes hx
    exact Bool.false_ne_true (hnot.symm.trans hselects)
  next => exact absurd h Bool.false_ne_true

section Steps

variable (graph env id)

/-- What `isStaticallyEmpty` owes a plan. -/
def EmptySound (plan : NodeAccessPlan) : Prop :=
  plan.OneForm → isStaticallyEmpty plan = true → ¬plan.reads graph env id

/-- What `plansContradict` owes two plans. -/
def PairSound (left right : NodeAccessPlan) : Prop :=
  left.OneForm → right.OneForm → left.SameForms right → plansContradict left right = true →
    ¬(left.reads graph env id ∧ right.reads graph env id)

/-- What `intersectionContradicts` owes the plans of an intersection. -/
def ListSound (plans : List NodeAccessPlan) : Prop :=
  OneFormMeet plans → intersectionContradicts plans = true →
    ¬∀ plan ∈ plans, plan.reads graph env id

end Steps

theorem ListSound.cons {left : NodeAccessPlan} {rest : List NodeAccessPlan}
    (hempty : EmptySound graph env id left)
    (hpair : ∀ right ∈ rest, PairSound graph env id left right)
    (hrest : ListSound graph env id rest) : ListSound graph env id (left :: rest) := by
  rintro ⟨hleft, hforms, hmeet⟩ h hreads
  rw [forall_mem_cons] at hreads
  rw [intersectionContradicts, Bool.or_eq_true, Bool.or_eq_true] at h
  rcases h with (h | h) | h
  · exact hempty hleft h hreads.1
  · obtain ⟨⟨right, hmem⟩, _, hcontradict⟩ := any_eq_true.mp h
    exact hpair right hmem hleft (hmeet.mem hmem) (hforms right hmem) hcontradict
      ⟨hreads.1, hreads.2 right hmem⟩
  · exact hrest hmeet h hreads.2

/-- The recursion's own induction: every branch of the rule keeps soundness. -/
theorem contradiction_sound :
    (∀ plan, EmptySound graph env id plan) ∧ (∀ plans, ListSound graph env id plans) ∧
      ∀ left right, PairSound graph env id left right := by
  apply isStaticallyEmpty.mutual_induct (EmptySound graph env id)
    (ListSound graph env id) (PairSound graph env id)
  case case1 => exact fun _ _ => not_false
  case case2 =>
    intro plans ih hform h
    rw [isStaticallyEmpty] at h
    rw [reads_intersect]
    exact ih hform h
  case case3 =>
    intro plans ih hform h hreads
    obtain ⟨child, hmem, hchild⟩ := reads_union.mp hreads
    rw [isStaticallyEmpty] at h
    exact ih child hmem (OneFormEach.mem hform hmem)
      (all_eq_true.mp h ⟨child, hmem⟩ (mem_attach _ _)) hchild
  case case4 =>
    intro plan hempty hintersect hunion _ h
    rw [isStaticallyEmpty] at h
    · exact absurd h Bool.false_ne_true
    · exact hempty
    · exact hintersect
    · exact hunion
  case case5 =>
    intro _ h
    rw [intersectionContradicts] at h
    exact absurd h Bool.false_ne_true
  case case6 => exact fun left rest hempty hpair hrest => ListSound.cons hempty hpair hrest
  case case7 =>
    intro left right hempty ihl ihr hl hr _ _ hreads
    rcases Bool.or_eq_true_iff.mp hempty with hempty | hempty
    · exact ihl hl hempty hreads.1
    · exact ihr hr hempty hreads.2
  -- A node of a union is in one of its branches, and that branch contradicts too.
  case case8 =>
    intro children other hne _ _ ih hl hr hforms h hreads
    obtain ⟨child, hmem, hchild⟩ := reads_union.mp hreads.1
    rw [plansContradict, if_neg hne] at h
    exact ih child hmem (OneFormEach.mem hl hmem) hr (.left hforms hmem)
      (all_eq_true.mp h ⟨child, hmem⟩ (mem_attach _ _)) ⟨hchild, hreads.2⟩
  case case9 =>
    intro other children hother hne _ _ ih hl hr hforms h hreads
    obtain ⟨child, hmem, hchild⟩ := reads_union.mp hreads.2
    rw [plansContradict, if_neg hne] at h
    · exact ih child hmem hl (OneFormEach.mem hr hmem) (.right hforms hmem)
        (all_eq_true.mp h ⟨child, hmem⟩ (mem_attach _ _)) ⟨hreads.1, hchild⟩
    · exact hother
  case case10 =>
    intro children other hother hne _ _ ih hl hr hforms h hreads
    rw [plansContradict, if_neg hne] at h
    · obtain ⟨⟨child, hmem⟩, _, hcontradict⟩ := any_eq_true.mp h
      exact ih child hmem (OneFormMeet.mem hl hmem) hr (.left hforms hmem) hcontradict
        ⟨reads_intersect.mp hreads.1 child hmem, hreads.2⟩
    · exact hother
  case case11 =>
    intro other children hunion hintersect hne _ _ ih hl hr hforms h hreads
    rw [plansContradict, if_neg hne] at h
    · obtain ⟨⟨child, hmem⟩, _, hcontradict⟩ := any_eq_true.mp h
      exact ih child hmem hl (OneFormMeet.mem hr hmem) (.right hforms hmem) hcontradict
        ⟨hreads.1, reads_intersect.mp hreads.2 child hmem⟩
    · exact hunion
    · exact hintersect
  case case12 =>
    intro left right hleft hright hleft' hright' hne _ _ _ _ hforms h hreads
    rw [plansContradict, if_neg hne, Bool.or_eq_true, Bool.or_eq_true] at h
    · rcases h with (h | h) | h
      · exact literalEqualitiesConflict_sound hforms h hreads
      · exact literalEqualityRangeConflict_sound h hreads
      · exact literalEqualityRangeConflict_sound h hreads.symm
    · exact hleft
    · exact hleft'
    · exact hright
    · exact hright'

end Soundness

/-! ## §3. Which literals make it right. -/

/-- Two lookups of one key whose literals are equal and differ in form. -/
def twoForms (key : ScopedPropertyKey) (left right : SecondaryIndexLiteral) : NodeAccessPlan :=
  .intersect [.equalityIndex "" key (.literal left), .equalityIndex "" key (.literal right)]

/-- A graph of one node, stored with the first literal. -/
def oneNode (key : ScopedPropertyKey) (value : SecondaryIndexLiteral) : StoredGraph where
  nodes := [0]
  label := fun _ => key.label
  property := fun _ _ => some value.value.astToDbValue

theorem hasStaticContradiction_twoForms (key : ScopedPropertyKey)
    (h : PropertyValue.beq left.value right.value = false) :
    hasStaticContradiction (twoForms key left right) = true := by
  have hconflict : literalEqualitiesConflict (.equalityIndex "" key (.literal left))
      (.equalityIndex "" key (.literal right)) = true := by
    simp [literalEqualitiesConflict, literalEqualityParts, h]
  simp [hasStaticContradiction, twoForms, intersectionContradicts, plansContradict, hconflict]

theorem reads_twoForms (key : ScopedPropertyKey)
    (h : propertyValuesEqual left.value right.value = true) (env : Environment) :
    (twoForms key left right).reads (oneNode key left) env 0 := by
  rw [twoForms, reads_intersect]
  intro plan hmem
  simp only [mem_cons, not_mem_nil, or_false] at hmem
  rcases hmem with rfl | rfl
  · have hself := propertyValuesEqual_trans h (propertyValuesEqual_symm h)
    exact ⟨mem_singleton_self 0, rfl, by rwa [propertyValuesEqual_eq] at hself⟩
  · exact ⟨mem_singleton_self 0, rfl, by rwa [propertyValuesEqual_eq] at h⟩

/-- If the intersection of the plans is reported, no stored node is in every set. -/
def ReportsRight (plans : List NodeAccessPlan) : Prop :=
  hasStaticContradiction (.intersect plans) = true →
    ∀ (graph : StoredGraph) (env : Environment), ∀ id ∈ graph.nodes,
      ¬∀ plan ∈ plans, plan.reads graph env id

end HelixDb.Planner
