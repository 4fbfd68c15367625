/-
  HelixDb.Planner.Subsumption

  **WHEN ONE ACCESS SET CONTAINS ANOTHER.**

  The planner tests containment of two node access plans by their structure: a
  full scan contains everything, a label scan the lookups of its label, a range
  the literals and the ranges inside it; unions and intersections are taken
  apart.  The test is sound, and it is transitive, so dropping every source that
  another one covers loses nothing.

    • `reads_of_beq`, `reads_of_subsumes` — equal plans read the same nodes, a
      containing plan reads at least as many;
    • `subsumes_trans` — the test composes.
-/
import HelixDb.Planner.Access
import HelixDb.Planner.RangeContainment

namespace HelixDb.Planner

open HelixDb.Lib NodeAccessPlan List
open HelixDb.Ast (PropertyValue)

/-! ## §1. Derived equality. -/

/-- The derived equality of literals. -/
def SecondaryIndexLiteral.beq (left right : SecondaryIndexLiteral) : Bool :=
  PropertyValue.beq left.value right.value

/-- Literal sets, element by element. -/
def IndexValue.beqLiterals : List SecondaryIndexLiteral → List SecondaryIndexLiteral → Bool
  | [], [] => true
  | left :: lefts, right :: rights => left.beq right && beqLiterals lefts rights
  | _, _ => false

/-- The derived equality of lookups. -/
def IndexValue.beq : IndexValue → IndexValue → Bool
  | .literal left, .literal right => left.beq right
  | .runtime left, .runtime right => left == right
  | .literalSet left, .literalSet right => beqLiterals left right
  | _, _ => false

namespace NodeAccessPlan

mutual

/-- The derived equality of plans. -/
def beq : NodeAccessPlan → NodeAccessPlan → Bool
  | .empty, .empty => true
  | .pointIds left, .pointIds right => left == right
  | .allScan, .allScan => true
  | .labelScan left, .labelScan right => left == right
  | .equalityIndex index key value, .equalityIndex index' key' value' =>
    index == index' && key == key' && value.beq value'
  | .rangeIndex index key range iteration, .rangeIndex index' key' range' iteration' =>
    index == index' && key == key' && range.beq range' && iteration == iteration'
  | .search label query, .search label' query' => label == label' && query == query'
  | .source left, .source right => left == right
  | .intersect left, .intersect right => beqList left right
  | .union left, .union right => beqList left right
  | _, _ => false

/-- Plans, one by one. -/
def beqList : List NodeAccessPlan → List NodeAccessPlan → Bool
  | [], [] => true
  | left :: lefts, right :: rights => left.beq right && beqList lefts rights
  | _, _ => false

end

/-- What equal plans have in common: values and ranges may be written differently. -/
inductive Alike : NodeAccessPlan → NodeAccessPlan → Prop
  | refl (plan) : Alike plan plan
  | equalityIndex (index key) {value value'} (h : value.beq value' = true) :
      Alike (.equalityIndex index key value) (.equalityIndex index key value')
  | rangeIndex (index key iteration) {range range'} (h : range.beq range' = true) :
      Alike (.rangeIndex index key range iteration) (.rangeIndex index key range' iteration)
  | intersect {lefts rights} (h : beqList lefts rights = true) :
      Alike (.intersect lefts) (.intersect rights)
  | union {lefts rights} (h : beqList lefts rights = true) : Alike (.union lefts) (.union rights)

theorem alike_of_beq {left right : NodeAccessPlan} (h : left.beq right = true) :
    Alike left right := by
  cases left <;> cases right <;> first
    | exact .refl _
    | exact .intersect h
    | exact .union h
    | (simp only [beq, Bool.false_eq_true, Bool.and_eq_true, beq_iff_eq] at h)
  case equalityIndex.equalityIndex =>
    obtain ⟨⟨rfl, rfl⟩, hvalue⟩ := h
    exact .equalityIndex _ _ hvalue
  case rangeIndex.rangeIndex =>
    obtain ⟨⟨⟨rfl, rfl⟩, hrange⟩, rfl⟩ := h
    exact .rangeIndex _ _ _ hrange
  case search.search =>
    obtain ⟨rfl, rfl⟩ := h
    exact .refl _
  all_goals
    subst h
    exact .refl _

/-- `direct_label`. -/
def directLabel : NodeAccessPlan → Option String
  | .labelScan label => some label
  | .equalityIndex _ key _ => some key.label
  | .rangeIndex _ key _ _ => some key.label
  | .search label _ => some label
  | _ => none

end NodeAccessPlan

variable {graph : StoredGraph} {env : Environment} {id : Nat}

theorem IndexValue.admits_of_beqLiterals {left right : List SecondaryIndexLiteral}
    (h : IndexValue.beqLiterals left right = true) (x : Property.PropertyValue) :
    (left.any fun value => x.eqValue value.value.astToDbValue) =
      right.any fun value => x.eqValue value.value.astToDbValue := by
  induction left generalizing right with
  | nil =>
    cases right with
    | nil => rfl
    | cons _ _ => cases h
  | cons head tail ih =>
    cases right with
    | nil => cases h
    | cons head' tail' =>
      rw [IndexValue.beqLiterals, Bool.and_eq_true] at h
      rw [any_cons, any_cons, ih h.2, eqValue_eq_of_beq h.1]

theorem IndexValue.admits_of_beq {left right : IndexValue} (h : left.beq right = true)
    (x : Property.PropertyValue) : left.admits env x = right.admits env x := by
  cases left <;> cases right <;> first | cases h | skip
  · exact eqValue_eq_of_beq h
  · rw [beq_iff_eq.mp h]
  · exact IndexValue.admits_of_beqLiterals h x

mutual

/-- **Equal plans read the same nodes.** -/
theorem NodeAccessPlan.reads_of_beq {left right : NodeAccessPlan} (h : left.beq right = true) :
    left.reads graph env id ↔ right.reads graph env id := by
  cases alike_of_beq h with
  | refl => exact Iff.rfl
  | equalityIndex _ _ hvalue => rw [reads, reads, IndexValue.admits_of_beq hvalue]
  | rangeIndex _ _ _ hrange => simp only [reads, IndexRange.selects_of_beq hrange]
  | intersect hlists => exact (readsList_of_beqList hlists).1
  | union hlists => exact (readsList_of_beqList hlists).2

theorem NodeAccessPlan.readsList_of_beqList : ∀ {left right : List NodeAccessPlan},
    beqList left right = true →
      (readsAll graph env id left ↔ readsAll graph env id right) ∧
        (readsAny graph env id left ↔ readsAny graph env id right)
  | [], right, h => by cases right <;> first | exact ⟨Iff.rfl, Iff.rfl⟩ | cases h
  | head :: tail, right, h => by
    cases right <;> first | cases h | skip
    rw [beqList, Bool.and_eq_true] at h
    obtain ⟨hall, hany⟩ := readsList_of_beqList h.2
    exact ⟨and_congr (reads_of_beq h.1) hall, or_congr (reads_of_beq h.1) hany⟩

end

theorem IndexValue.beqLiterals_trans : ∀ {a b c : List SecondaryIndexLiteral},
    beqLiterals a b = true → beqLiterals b c = true → beqLiterals a c = true
  | [], b, c, hab, hbc => by
    cases b <;> first | exact hbc | cases hab
  | head :: tail, b, c, hab, hbc => by
    cases b <;> first | cases hab | skip
    cases c <;> first | cases hbc | skip
    rw [beqLiterals, Bool.and_eq_true] at hab hbc ⊢
    exact ⟨Planner.beq_trans hab.1 hbc.1, beqLiterals_trans hab.2 hbc.2⟩

theorem IndexValue.beq_trans {a b c : IndexValue} (hab : a.beq b = true) (hbc : b.beq c = true) :
    a.beq c = true := by
  cases a <;> cases b <;> first | cases hab | skip
  all_goals cases c <;> first | cases hbc | skip
  · exact Planner.beq_trans hab hbc
  · exact beq_iff_eq.mpr ((beq_iff_eq.mp hab).trans (beq_iff_eq.mp hbc))
  · exact IndexValue.beqLiterals_trans hab hbc

mutual

theorem NodeAccessPlan.beq_trans {a b c : NodeAccessPlan} (hab : a.beq b = true)
    (hbc : b.beq c = true) : a.beq c = true := by
  cases alike_of_beq hab with
  | refl => exact hbc
  | equalityIndex =>
    cases c <;> first | cases hbc | skip
    simp only [beq, Bool.and_eq_true] at hab hbc ⊢
    exact ⟨hbc.1, IndexValue.beq_trans hab.2 hbc.2⟩
  | rangeIndex =>
    cases c <;> first | cases hbc | skip
    simp only [beq, Bool.and_eq_true] at hab hbc ⊢
    exact ⟨⟨hbc.1.1, IndexRange.beq_trans hab.1.2 hbc.1.2⟩, hbc.2⟩
  | intersect | union =>
    cases c <;> first | cases hbc | skip
    exact beqList_trans hab hbc

theorem NodeAccessPlan.beqList_trans : ∀ {a b c : List NodeAccessPlan}, beqList a b = true →
    beqList b c = true → beqList a c = true
  | [], b, c, hab, hbc => by
    cases b <;> first | exact hbc | cases hab
  | head :: tail, b, c, hab, hbc => by
    cases b <;> first | cases hab | skip
    cases c <;> first | cases hbc | skip
    rw [beqList, Bool.and_eq_true] at hab hbc ⊢
    exact ⟨beq_trans hab.1 hbc.1, beqList_trans hab.2 hbc.2⟩

end

/-! ## §2. The containment test. -/

/-- The last arms of the test, on two sources that are no sets. -/
def leafSubsumes : NodeAccessPlan → NodeAccessPlan → Bool
  | .labelScan label, subset => subset.directLabel == some label
  | .rangeIndex _ rangeKey range _, .equalityIndex _ equalityKey (.literal value) =>
    rangeKey.label == equalityKey.label && rangeKey.property == equalityKey.property &&
      range.containsLiteral value.value
  | .rangeIndex _ supersetKey supersetRange _, .rangeIndex _ subsetKey subsetRange _ =>
    supersetKey.label == subsetKey.label && supersetKey.property == subsetKey.property &&
      supersetRange.containsRange subsetRange
  | _, _ => false

/-- The cases of that test. -/
inductive LeafCovers : NodeAccessPlan → NodeAccessPlan → Prop
  | labelScan {label subset} (h : subset.directLabel = some label) :
      LeafCovers (.labelScan label) subset
  | literal {index index' key key' iteration range value} (hlabel : key.label = key'.label)
      (hproperty : key.property = key'.property) (h : range.containsLiteral value.value = true) :
      LeafCovers (.rangeIndex index key range iteration) (.equalityIndex index' key' (.literal value))
  | range {index index' key key' iteration iteration' range range'}
      (hlabel : key.label = key'.label) (hproperty : key.property = key'.property)
      (h : range.containsRange range' = true) :
      LeafCovers (.rangeIndex index key range iteration) (.rangeIndex index' key' range' iteration')

theorem leafSubsumes_iff {superset subset : NodeAccessPlan} :
    leafSubsumes superset subset = true ↔ LeafCovers superset subset := by
  constructor
  · intro h
    cases superset <;> first | cases h | skip
    case labelScan => exact .labelScan (beq_iff_eq.mp h)
    case rangeIndex =>
      cases subset <;> first | cases h | skip
      case equalityIndex value =>
        cases value <;> first | cases h | skip
        simp only [leafSubsumes, Bool.and_eq_true, beq_iff_eq] at h
        exact .literal h.1.1 h.1.2 h.2
      case rangeIndex =>
        simp only [leafSubsumes, Bool.and_eq_true, beq_iff_eq] at h
        exact .range h.1.1 h.1.2 h.2
  · intro h
    cases h with
    | labelScan h => exact beq_iff_eq.mpr h
    | literal hlabel hproperty h | range hlabel hproperty h =>
      simp [leafSubsumes, hlabel, hproperty, h]

/-- `structurally_subsumes`. -/
def structurallySubsumes (superset subset : NodeAccessPlan) : Bool :=
  match superset, subset with
  | _, .empty => true
  | .allScan, _ => true
  | superset, .union children => children.attach.all fun ⟨child, _⟩ =>
    superset.beq child || structurallySubsumes superset child
  | superset, .intersect children => children.attach.any fun ⟨child, _⟩ =>
    superset.beq child || structurallySubsumes superset child
  | .union children, subset => children.attach.any fun ⟨child, _⟩ =>
    child.beq subset || structurallySubsumes child subset
  | .intersect children, subset => children.attach.all fun ⟨child, _⟩ =>
    child.beq subset || structurallySubsumes child subset
  | superset, subset => leafSubsumes superset subset
termination_by sizeOf superset + sizeOf subset
decreasing_by
  all_goals
    have := List.sizeOf_lt_of_mem ‹_›
    simp_wf
    omega

/-- Equal, or subsumed by structure. -/
def subsumes (superset subset : NodeAccessPlan) : Bool :=
  superset.beq subset || structurallySubsumes superset subset

/-- Neither empty nor a set. -/
def NodeAccessPlan.IsLeaf : NodeAccessPlan → Prop
  | .empty | .union _ | .intersect _ => False
  | _ => True

variable {plan : NodeAccessPlan}

theorem NodeAccessPlan.IsLeaf.ne_empty (h : plan.IsLeaf) : plan = .empty → False := by
  rintro rfl
  exact h

theorem NodeAccessPlan.IsLeaf.ne_union (h : plan.IsLeaf)
    (plans : List NodeAccessPlan) : plan = .union plans → False := by
  rintro rfl
  exact h

theorem NodeAccessPlan.IsLeaf.ne_intersect (h : plan.IsLeaf)
    (plans : List NodeAccessPlan) : plan = .intersect plans → False := by
  rintro rfl
  exact h

variable {plans : List NodeAccessPlan}

theorem NodeAccessPlan.isLeaf_or (plan : NodeAccessPlan) :
    plan = .empty ∨ (∃ plans, plan = .union plans) ∨ (∃ plans, plan = .intersect plans) ∨
      plan.IsLeaf := by
  cases plan with
  | empty => exact .inl rfl
  | union plans => exact .inr (.inl ⟨plans, rfl⟩)
  | intersect plans => exact .inr (.inr (.inl ⟨plans, rfl⟩))
  | _ => exact .inr (.inr (.inr trivial))

theorem NodeAccessPlan.sizeOf_lt_union (h : plan ∈ plans) : sizeOf plan < sizeOf (union plans) := by
  have := sizeOf_lt_of_mem h
  simp only [union.sizeOf_spec]
  omega

theorem NodeAccessPlan.sizeOf_lt_intersect
    (h : plan ∈ plans) : sizeOf plan < sizeOf (intersect plans) := by
  have := sizeOf_lt_of_mem h
  simp only [intersect.sizeOf_spec]
  omega

/-! ### One rule for each shape -/

theorem structurallySubsumes_empty (superset : NodeAccessPlan) :
    structurallySubsumes superset .empty = true := by
  rw [structurallySubsumes]

theorem structurallySubsumes_allScan (subset : NodeAccessPlan) :
    structurallySubsumes .allScan subset = true := by
  cases subset <;> rw [structurallySubsumes] <;> simp

theorem subsumes_allScan (subset : NodeAccessPlan) : subsumes .allScan subset = true := by
  rw [subsumes, structurallySubsumes_allScan, Bool.or_true]

variable {children : List NodeAccessPlan}

theorem structurallySubsumes_union {superset : NodeAccessPlan} :
    structurallySubsumes superset (.union children) = true ↔
      ∀ child ∈ children, subsumes superset child = true := by
  by_cases hall : superset = .allScan
  · subst hall
    simp [structurallySubsumes_allScan, subsumes_allScan]
  · rw [structurallySubsumes]
    · simp [subsumes]
    · exact fun h => hall h

theorem structurallySubsumes_intersect {superset : NodeAccessPlan} (hall : superset ≠ .allScan) :
    structurallySubsumes superset (.intersect children) = true ↔
      ∃ child ∈ children, subsumes superset child = true := by
  rw [structurallySubsumes]
  · simp only [any_eq_true, mem_attach, true_and, Subtype.exists, subsumes, exists_prop]
  · exact fun h => hall h

theorem structurallySubsumes_union_left {subset : NodeAccessPlan} (hleaf : subset.IsLeaf) :
    structurallySubsumes (.union children) subset = true ↔
      ∃ child ∈ children, subsumes child subset = true := by
  rw [structurallySubsumes]
  · simp only [any_eq_true, mem_attach, true_and, Subtype.exists, subsumes, exists_prop]
  · exact hleaf.ne_empty
  · exact hleaf.ne_union
  · exact hleaf.ne_intersect

theorem structurallySubsumes_intersect_left {subset : NodeAccessPlan} (hleaf : subset.IsLeaf) :
    structurallySubsumes (.intersect children) subset = true ↔
      ∀ child ∈ children, subsumes child subset = true := by
  rw [structurallySubsumes]
  · simp only [all_eq_true, mem_attach, forall_const, Subtype.forall, subsumes]
  · exact hleaf.ne_empty
  · exact hleaf.ne_union
  · exact hleaf.ne_intersect

theorem structurallySubsumes_leaf {superset subset : NodeAccessPlan}
    (hall : superset ≠ .allScan) (hunion : ∀ plans, superset ≠ .union plans)
    (hintersect : ∀ plans, superset ≠ .intersect plans) (hleaf : subset.IsLeaf) :
    structurallySubsumes superset subset = leafSubsumes superset subset := by
  rw [structurallySubsumes]
  · exact fun h => hall h
  · exact fun plans h => hunion plans h
  · exact fun plans h => hintersect plans h
  · exact hleaf.ne_empty
  · exact hleaf.ne_union
  · exact hleaf.ne_intersect

/-! ## §3. Soundness. -/

mutual

/-- Sets have two sources or more, and every point identifier is a stored node. -/
def NodeAccessPlan.Valid (graph : StoredGraph) : NodeAccessPlan → Prop
  | .pointIds ids => ∀ id ∈ ids, id ∈ graph.nodes
  | .intersect plans | .union plans => 2 ≤ plans.length ∧ ValidList graph plans
  | _ => True

/-- Every plan is valid. -/
def NodeAccessPlan.ValidList (graph : StoredGraph) : List NodeAccessPlan → Prop
  | [] => True
  | plan :: plans => plan.Valid graph ∧ ValidList graph plans

end

/-- Sources of the run name stored nodes only. -/
def Environment.Grounded (env : Environment) (graph : StoredGraph) : Prop :=
  ∀ name id, env.source name id = true → id ∈ graph.nodes

theorem NodeAccessPlan.validList_iff :
    ValidList graph plans ↔ ∀ plan ∈ plans, plan.Valid graph := by
  induction plans with
  | nil => simp [ValidList]
  | cons plan plans ih => rw [ValidList, ih, forall_mem_cons]

theorem NodeAccessPlan.Valid.child {plan : NodeAccessPlan}
    (h : (union plans).Valid graph ∨ (intersect plans).Valid graph)
    (hmem : plan ∈ plans) : plan.Valid graph := by
  rcases h with h | h <;> exact validList_iff.mp h.2 plan hmem

theorem NodeAccessPlan.Valid.exists_child
    (h : (intersect plans).Valid graph) : ∃ plan, plan ∈ plans := by
  have hlength : 2 ≤ plans.length := h.1
  exact exists_mem_of_length_pos (by omega)

/-- A valid plan reads stored nodes only. -/
theorem NodeAccessPlan.mem_nodes_of_reads (hground : env.Grounded graph) :
    ∀ (plan : NodeAccessPlan), plan.Valid graph → plan.reads graph env id → id ∈ graph.nodes
  | .empty, _, hreads => hreads.elim
  | .pointIds ids, hvalid, hreads => hvalid id hreads
  | .allScan, _, hreads => hreads
  | .labelScan _, _, hreads => hreads.1
  | .equalityIndex _ _ _, _, hreads => hreads.1
  | .rangeIndex _ _ _ _, _, hreads => hreads.1
  | .search _ _, _, hreads => hreads.1
  | .source name, _, hreads => hground name id hreads
  | .intersect plans, hvalid, hreads => by
    obtain ⟨plan, hmem⟩ := hvalid.exists_child
    exact mem_nodes_of_reads hground plan (Valid.child (.inr hvalid) hmem)
      (reads_intersect.mp hreads plan hmem)
  | .union plans, hvalid, hreads => by
    obtain ⟨plan, hmem, hplan⟩ := reads_union.mp hreads
    exact mem_nodes_of_reads hground plan (Valid.child (.inl hvalid) hmem) hplan

/-- A node whose property, null when missing, lies in a range stores it. -/
theorem property_of_selects_getD {range : IndexRange} {property : Option Property.PropertyValue}
    (h : range.selects env.params (property.getD .null) = true) :
    ∃ x, property = some x ∧ range.selects env.params x = true := by
  cases property with
  | none => exact absurd (IndexRange.rangeKey_of_selects h) Bool.false_ne_true
  | some x => exact ⟨x, rfl, h⟩

theorem reads_of_leafSubsumes {superset subset : NodeAccessPlan}
    (h : leafSubsumes superset subset = true) (hreads : subset.reads graph env id) :
    superset.reads graph env id := by
  cases leafSubsumes_iff.mp h with
  | labelScan hlabel =>
    cases subset <;> cases hlabel
    · exact hreads
    · exact ⟨hreads.1, hreads.2.1⟩
    · exact ⟨hreads.1, hreads.2.1⟩
    · exact ⟨hreads.1, hreads.2.1⟩
  | literal hlabel hproperty hcontains =>
    obtain ⟨hnode, hnodeLabel, hvalue⟩ := hreads
    rw [← hproperty] at hvalue
    exact ⟨hnode, hnodeLabel.trans hlabel.symm,
      property_of_selects_getD (IndexRange.selects_of_containsLiteral hcontains hvalue)⟩
  | range hlabel hproperty hcontains =>
    obtain ⟨hnode, hnodeLabel, x, hx, hselects⟩ := hreads
    exact ⟨hnode, hnodeLabel.trans hlabel.symm, x, hproperty ▸ hx,
      IndexRange.selects_of_containsRange hcontains hselects⟩

/-- **A plan that contains another reads at least its nodes.** -/
theorem reads_of_subsumes (hground : env.Grounded graph) {superset subset : NodeAccessPlan}
    (hvalid : subset.Valid graph) (h : subsumes superset subset = true)
    (hreads : subset.reads graph env id) : superset.reads graph env id := by
  -- strong induction on the sizes: each rule takes one side apart
  induction hsize : sizeOf superset + sizeOf subset using Nat.strong_induction_on
    generalizing superset subset with
  | _ n ih =>
    rw [subsumes, Bool.or_eq_true] at h
    rcases h with hbeq | h
    · exact (reads_of_beq hbeq).mpr hreads
    by_cases hall : superset = .allScan
    · subst hall
      exact mem_nodes_of_reads hground subset hvalid hreads
    rcases subset.isLeaf_or with rfl | ⟨plans, rfl⟩ | ⟨plans, rfl⟩ | hleaf
    · exact hreads.elim
    · obtain ⟨child, hmem, hchild⟩ := reads_union.mp hreads
      have hlt := sizeOf_lt_union hmem
      exact ih _ (by omega) (.child (.inl hvalid) hmem)
        (structurallySubsumes_union.mp h child hmem) hchild rfl
    · obtain ⟨child, hmem, hchild⟩ := (structurallySubsumes_intersect hall).mp h
      have hlt := sizeOf_lt_intersect hmem
      exact ih _ (by omega) (.child (.inr hvalid) hmem) hchild
        (reads_intersect.mp hreads child hmem) rfl
    · rcases superset.isLeaf_or with rfl | ⟨plans, rfl⟩ | ⟨plans, rfl⟩ | hleaf'
      · rw [structurallySubsumes_leaf hall (by simp) (by simp) hleaf] at h
        cases h
      · obtain ⟨child, hmem, hchild⟩ := (structurallySubsumes_union_left hleaf).mp h
        have hlt := sizeOf_lt_union hmem
        exact reads_union.mpr
          ⟨child, hmem, ih _ (by omega) hvalid hchild hreads rfl⟩
      · rw [reads_intersect]
        intro child hmem
        have hlt := sizeOf_lt_intersect hmem
        exact ih _ (by omega) hvalid
          ((structurallySubsumes_intersect_left hleaf).mp h child hmem) hreads rfl
      · rw [structurallySubsumes_leaf hall hleaf'.ne_union hleaf'.ne_intersect hleaf] at h
        exact reads_of_leafSubsumes h hreads

/-! ## §4. The test composes. -/

section Transitive

variable {a b c : NodeAccessPlan}

theorem NodeAccessPlan.directLabel_of_beq (h : a.beq b = true) : a.directLabel = b.directLabel := by
  cases alike_of_beq h <;> rfl

/-- The label of a source that another source with a label covers. -/
theorem directLabel_of_leafSubsumes {label : String} (hab : leafSubsumes a b = true)
    (ha : a.directLabel = some label) : b.directLabel = some label := by
  cases leafSubsumes_iff.mp hab with
  | labelScan h => exact h.trans ha
  | literal hlabel | range hlabel =>
    rw [← ha]
    exact congrArg some hlabel.symm

theorem leafSubsumes_trans (hab : leafSubsumes a b = true) (hbc : leafSubsumes b c = true) :
    leafSubsumes a c = true := by
  cases leafSubsumes_iff.mp hab with
  | labelScan h => exact leafSubsumes_iff.mpr (.labelScan (directLabel_of_leafSubsumes hbc h))
  | literal => cases hbc
  | range hlabel hproperty h =>
    cases leafSubsumes_iff.mp hbc with
    | literal hlabel' hproperty' h' =>
      exact leafSubsumes_iff.mpr (.literal (hlabel.trans hlabel') (hproperty.trans hproperty')
        (IndexRange.containsLiteral_of_containsRange h h'))
    | range hlabel' hproperty' h' =>
      exact leafSubsumes_iff.mpr (.range (hlabel.trans hlabel') (hproperty.trans hproperty')
        (IndexRange.containsRange_trans h h'))

theorem leafSubsumes_congr_left (hab : a.beq b = true) (hbc : leafSubsumes b c = true) :
    leafSubsumes a c = true := by
  cases alike_of_beq hab with
  | refl => exact hbc
  | rangeIndex _ _ _ hrange =>
    have hcontains := IndexRange.containsRange_iff.mpr (.inl hrange)
    cases leafSubsumes_iff.mp hbc with
    | literal hlabel hproperty h =>
      exact leafSubsumes_iff.mpr (.literal hlabel hproperty
        (IndexRange.containsLiteral_of_containsRange hcontains h))
    | range hlabel hproperty h =>
      exact leafSubsumes_iff.mpr (.range hlabel hproperty
        (IndexRange.containsRange_trans hcontains h))
  | _ => cases hbc

theorem leafSubsumes_congr_right (hab : leafSubsumes a b = true) (hbc : b.beq c = true) :
    leafSubsumes a c = true := by
  cases leafSubsumes_iff.mp hab with
  | labelScan h =>
    exact leafSubsumes_iff.mpr (.labelScan ((directLabel_of_beq hbc).symm.trans h))
  | literal hlabel hproperty h =>
    cases alike_of_beq hbc with
    | refl => exact hab
    | @equalityIndex _ _ _ value hvalue =>
      cases value <;> first | cases hvalue | skip
      exact leafSubsumes_iff.mpr (.literal hlabel hproperty
        (IndexRange.containsLiteral_congr hvalue h))
  | range hlabel hproperty h =>
    cases alike_of_beq hbc with
    | refl => exact hab
    | rangeIndex _ _ _ hrange =>
      exact leafSubsumes_iff.mpr (.range hlabel hproperty
        (IndexRange.containsRange_trans h (IndexRange.containsRange_iff.mpr (.inl hrange))))

/-- Equal plans have one shape. -/
theorem NodeAccessPlan.shape_of_beq (h : a.beq b = true) :
    (a = .empty ∧ b = .empty) ∨
      (∃ as bs, a = .union as ∧ b = .union bs ∧ beqList as bs = true) ∨
      (∃ as bs, a = .intersect as ∧ b = .intersect bs ∧ beqList as bs = true) ∨
      (a.IsLeaf ∧ b.IsLeaf ∧ (a = .allScan ↔ b = .allScan)) := by
  cases a <;> cases b <;> first
    | exact absurd h Bool.false_ne_true
    | exact .inl ⟨rfl, rfl⟩
    | exact .inr (.inl ⟨_, _, rfl, rfl, h⟩)
    | exact .inr (.inr (.inl ⟨_, _, rfl, rfl, h⟩))
    | exact .inr (.inr (.inr ⟨trivial, trivial, by simp⟩))

theorem NodeAccessPlan.exists_of_beqList {as bs : List NodeAccessPlan} (h : beqList as bs = true) :
    (∀ x ∈ as, ∃ y ∈ bs, x.beq y = true) ∧ ∀ y ∈ bs, ∃ x ∈ as, x.beq y = true := by
  induction as generalizing bs with
  | nil =>
    cases bs with
    | nil => simp
    | cons _ _ => cases h
  | cons x as ih =>
    cases bs with
    | nil => cases h
    | cons y bs =>
      rw [beqList, Bool.and_eq_true] at h
      obtain ⟨hleft, hright⟩ := ih h.2
      constructor
      · intro z hz
        rcases mem_cons.mp hz with rfl | hz
        · exact ⟨y, mem_cons_self .., h.1⟩
        · obtain ⟨w, hw, heq⟩ := hleft z hz
          exact ⟨w, mem_cons_of_mem _ hw, heq⟩
      · intro z hz
        rcases mem_cons.mp hz with rfl | hz
        · exact ⟨x, mem_cons_self .., h.1⟩
        · obtain ⟨w, hw, heq⟩ := hright z hz
          exact ⟨w, mem_cons_of_mem _ hw, heq⟩

theorem subsumes_of_structurally (h : structurallySubsumes a b = true) : subsumes a b = true := by
  rw [subsumes, h, Bool.or_true]

theorem structurallySubsumes_empty_left (hleaf : b.IsLeaf) :
    structurallySubsumes .empty b = false := by
  rw [structurallySubsumes_leaf (by simp) (by simp) (by simp) hleaf]
  rfl

theorem not_leafSubsumes_allScan (a : NodeAccessPlan) : leafSubsumes a .allScan ≠ true := by
  cases a <;> simp [leafSubsumes, directLabel]

/-- Equal plans contain the same plans. -/
theorem subsumes_congr_left (hab : a.beq b = true) (h : subsumes b c = true) :
    subsumes a c = true := by
  induction hsize : sizeOf b + sizeOf c using Nat.strong_induction_on generalizing a b c with
  | _ n ih =>
    rw [subsumes, Bool.or_eq_true] at h
    rcases h with hbc | h
    · rw [subsumes, NodeAccessPlan.beq_trans hab hbc, Bool.true_or]
    by_cases hall : a = .allScan
    · rw [hall, subsumes_allScan]
    apply subsumes_of_structurally
    rcases c.isLeaf_or with rfl | ⟨cs, rfl⟩ | ⟨cs, rfl⟩ | hleaf
    · exact structurallySubsumes_empty a
    · rw [structurallySubsumes_union] at h ⊢
      intro child hmem
      have hlt := sizeOf_lt_union hmem
      exact ih _ (by omega) hab (h child hmem) rfl
    · have hall' : b ≠ .allScan := by
        rintro rfl
        cases a <;> first | exact hall rfl | cases hab
      obtain ⟨child, hmem, hchild⟩ := (structurallySubsumes_intersect hall').mp h
      have hlt := sizeOf_lt_intersect hmem
      exact (structurallySubsumes_intersect hall).mpr
        ⟨child, hmem, ih _ (by omega) hab hchild rfl⟩
    · rcases shape_of_beq hab with ⟨rfl, rfl⟩ | ⟨as, bs, rfl, rfl, hlists⟩ |
        ⟨as, bs, rfl, rfl, hlists⟩ | ⟨ha, hb, hscan⟩
      · exact h
      · obtain ⟨child, hmem, hchild⟩ := (structurallySubsumes_union_left hleaf).mp h
        obtain ⟨x, hx, hbeq⟩ := (exists_of_beqList hlists).2 child hmem
        have hlt := sizeOf_lt_union hmem
        exact (structurallySubsumes_union_left hleaf).mpr
          ⟨x, hx, ih _ (by omega) hbeq hchild rfl⟩
      · rw [structurallySubsumes_intersect_left hleaf] at h ⊢
        intro x hx
        obtain ⟨child, hmem, hbeq⟩ := (exists_of_beqList hlists).1 x hx
        have hlt := sizeOf_lt_intersect hmem
        exact ih _ (by omega) hbeq (h child hmem) rfl
      · rw [structurallySubsumes_leaf (mt hscan.mpr hall) hb.ne_union hb.ne_intersect hleaf] at h
        rw [structurallySubsumes_leaf hall ha.ne_union ha.ne_intersect hleaf]
        exact leafSubsumes_congr_left hab h

/-- Equal plans are contained in the same plans. -/
theorem subsumes_congr_right (h : subsumes a b = true) (hbc : b.beq c = true) :
    subsumes a c = true := by
  induction hsize : sizeOf a + sizeOf b using Nat.strong_induction_on generalizing a b c with
  | _ n ih =>
    rw [subsumes, Bool.or_eq_true] at h
    rcases h with hab | h
    · rw [subsumes, NodeAccessPlan.beq_trans hab hbc, Bool.true_or]
    by_cases hall : a = .allScan
    · rw [hall, subsumes_allScan]
    apply subsumes_of_structurally
    rcases shape_of_beq hbc with ⟨rfl, rfl⟩ | ⟨bs, cs, rfl, rfl, hlists⟩ |
      ⟨bs, cs, rfl, rfl, hlists⟩ | ⟨hb, hc, -⟩
    · exact h
    · rw [structurallySubsumes_union] at h ⊢
      intro z hz
      obtain ⟨child, hmem, hbeq⟩ := (exists_of_beqList hlists).2 z hz
      have hlt := sizeOf_lt_union hmem
      exact ih _ (by omega) (h child hmem) hbeq rfl
    · obtain ⟨child, hmem, hchild⟩ := (structurallySubsumes_intersect hall).mp h
      obtain ⟨z, hz, hbeq⟩ := (exists_of_beqList hlists).1 child hmem
      have hlt := sizeOf_lt_intersect hmem
      exact (structurallySubsumes_intersect hall).mpr
        ⟨z, hz, ih _ (by omega) hchild hbeq rfl⟩
    · rcases a.isLeaf_or with rfl | ⟨as, rfl⟩ | ⟨as, rfl⟩ | ha
      · simp [structurallySubsumes_empty_left hb] at h
      · obtain ⟨child, hmem, hchild⟩ := (structurallySubsumes_union_left hb).mp h
        have hlt := sizeOf_lt_union hmem
        exact (structurallySubsumes_union_left hc).mpr
          ⟨child, hmem, ih _ (by omega) hchild hbc rfl⟩
      · rw [structurallySubsumes_intersect_left hb] at h
        rw [structurallySubsumes_intersect_left hc]
        intro child hmem
        have hlt := sizeOf_lt_intersect hmem
        exact ih _ (by omega) (h child hmem) hbc rfl
      · rw [structurallySubsumes_leaf hall ha.ne_union ha.ne_intersect hb] at h
        rw [structurallySubsumes_leaf hall ha.ne_union ha.ne_intersect hc]
        exact leafSubsumes_congr_right h hbc

/-- **The containment test is transitive** on sets with two sources or more. -/
theorem subsumes_trans {graph : StoredGraph} (hvalid : c.Valid graph) (hab : subsumes a b = true)
    (hbc : subsumes b c = true) : subsumes a c = true := by
  -- whichever plan is a set is taken apart, the last one first
  induction hsize : sizeOf a + sizeOf b + sizeOf c using Nat.strong_induction_on
    generalizing a b c with
  | _ n ih =>
    rw [subsumes, Bool.or_eq_true] at hab hbc
    rcases hab with hbeq | hab
    · exact subsumes_congr_left hbeq (by rwa [subsumes, Bool.or_eq_true])
    rcases hbc with hbeq | hbc
    · exact subsumes_congr_right (subsumes_of_structurally hab) hbeq
    have hAB := subsumes_of_structurally hab
    have hBC := subsumes_of_structurally hbc
    by_cases hall : a = .allScan
    · rw [hall, subsumes_allScan]
    rcases c.isLeaf_or with rfl | ⟨cs, rfl⟩ | ⟨cs, rfl⟩ | hc
    · exact subsumes_of_structurally (structurallySubsumes_empty a)
    · refine subsumes_of_structurally (structurallySubsumes_union.mpr ?_)
      intro child hmem
      have hlt := sizeOf_lt_union hmem
      exact ih _ (by omega) (.child (.inl hvalid) hmem) hAB
        (structurallySubsumes_union.mp hbc child hmem) rfl
    · have hchild : ∃ child ∈ cs, subsumes b child = true := by
        by_cases hb : b = .allScan
        · obtain ⟨child, hmem⟩ := hvalid.exists_child
          exact ⟨child, hmem, by rw [hb, subsumes_allScan]⟩
        · exact (structurallySubsumes_intersect hb).mp hbc
      obtain ⟨child, hmem, hchild⟩ := hchild
      have hlt := sizeOf_lt_intersect hmem
      exact subsumes_of_structurally ((structurallySubsumes_intersect hall).mpr
        ⟨child, hmem, ih _ (by omega) (.child (.inr hvalid) hmem) hAB hchild rfl⟩)
    · rcases b.isLeaf_or with rfl | ⟨bs, rfl⟩ | ⟨bs, rfl⟩ | hb
      · simp [structurallySubsumes_empty_left hc] at hbc
      · obtain ⟨child, hmem, hchild⟩ := (structurallySubsumes_union_left hc).mp hbc
        have hlt := sizeOf_lt_union hmem
        exact ih _ (by omega) hvalid (structurallySubsumes_union.mp hab child hmem) hchild rfl
      · obtain ⟨child, hmem, hchild⟩ := (structurallySubsumes_intersect hall).mp hab
        have hlt := sizeOf_lt_intersect hmem
        exact ih _ (by omega) hvalid hchild
          ((structurallySubsumes_intersect_left hc).mp hbc child hmem) rfl
      · rcases a.isLeaf_or with rfl | ⟨as, rfl⟩ | ⟨as, rfl⟩ | ha
        · simp [structurallySubsumes_empty_left hb] at hab
        · obtain ⟨child, hmem, hchild⟩ := (structurallySubsumes_union_left hb).mp hab
          have hlt := sizeOf_lt_union hmem
          exact subsumes_of_structurally ((structurallySubsumes_union_left hc).mpr
            ⟨child, hmem, ih _ (by omega) hvalid hchild hBC rfl⟩)
        · refine subsumes_of_structurally ((structurallySubsumes_intersect_left hc).mpr ?_)
          intro child hmem
          have hlt := sizeOf_lt_intersect hmem
          exact ih _ (by omega) hvalid
            ((structurallySubsumes_intersect_left hb).mp hab child hmem) hBC rfl
        · rw [structurallySubsumes_leaf hall ha.ne_union ha.ne_intersect hb] at hab
          have hb' : b ≠ .allScan := by
            rintro rfl
            exact not_leafSubsumes_allScan a hab
          rw [structurallySubsumes_leaf hb' hb.ne_union hb.ne_intersect hc] at hbc
          apply subsumes_of_structurally
          rw [structurallySubsumes_leaf hall ha.ne_union ha.ne_intersect hc]
          exact leafSubsumes_trans hab hbc

end Transitive

end HelixDb.Planner
