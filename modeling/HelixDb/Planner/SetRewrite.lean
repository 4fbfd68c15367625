/-
  HelixDb.Planner.SetRewrite

  **REWRITES OF ACCESS SETS.**

  Five rules rewrite a union or an intersection of node sources: flattening with
  removal of empty and repeated sources, removal of sources another one covers,
  merging of ranges on one index key, restricting a union of literal lookups by a
  range, and removing lookups that a range of the same union covers.  Sources are
  bucketed by digests, of which nothing is assumed: every rule compares the
  sources themselves before it acts.

    • `reads_unionFromSources`, `reads_intersectionFromSources` — rebuilding a set;
    • `simplifyCanonical_reads`, `simplifySubsumption_reads`, `simplifyRange_reads`,
      `simplifyEqualityRange_reads`, `simplifyRangeUnion_reads` — each rule;
    • `set_rewrite_preserves_reads` — whichever rule fires, the nodes stay the same.
-/
import HelixDb.Lib.Dominance
import HelixDb.Planner.Contradiction
import HelixDb.Planner.Subsumption

namespace HelixDb.Planner

open HelixDb.Lib List Option
open NodeAccessPlan (reads reads_union reads_intersect intersect union reads_of_beq rangeIndex equalityIndex)
open HelixDb.Ast (PropertyValue)

/-! ## §1. Rebuilding a set. -/

/-- `node_union_from_sources`. -/
def unionFromSources : List NodeAccessPlan → NodeAccessPlan
  | [] => .empty
  | [plan] => plan
  | plans => .union plans

/-- `node_intersection_from_sources`. -/
def intersectionFromSources : List NodeAccessPlan → NodeAccessPlan
  | [] => .empty
  | [plan] => plan
  | plans => .intersect plans

variable {graph : StoredGraph} {env : Environment} {id : Nat}

theorem reads_unionFromSources (plans : List NodeAccessPlan) :
    (unionFromSources plans).reads graph env id ↔ ∃ plan ∈ plans, plan.reads graph env id := by
  match plans with
  | [] => simp [unionFromSources, reads]
  | [plan] => simp [unionFromSources]
  | first :: second :: rest => exact reads_union

variable {plans sources : List NodeAccessPlan}

theorem reads_intersectionFromSources (h : plans ≠ []) :
    (intersectionFromSources plans).reads graph env id ↔
      ∀ plan ∈ plans, plan.reads graph env id := by
  match plans with
  | [] => exact absurd rfl h
  | [plan] => simp [intersectionFromSources]
  | first :: second :: rest => exact reads_intersect

/-- Sources with the same common nodes rebuild to the same intersection.  They
cannot be none: then every identifier would be common, also one that is stored
nowhere. -/
theorem reads_intersection_congr (hground : env.Grounded graph)
    (hvalid : (intersect plans).Valid graph)
    (h : ∀ id, (∀ source ∈ sources, source.reads graph env id) ↔
      ∀ plan ∈ plans, plan.reads graph env id) :
    (intersectionFromSources sources).reads graph env id ↔
      (intersect plans).reads graph env id := by
  have hne : sources ≠ [] := by
    rintro rfl
    obtain ⟨fresh, hfresh⟩ := Infinite.exists_notMem_finset graph.nodes.toFinset
    have hreads : (intersect plans).reads graph env fresh :=
      reads_intersect.mpr ((h fresh).mp (by simp))
    exact hfresh (mem_toFinset.mpr
      (NodeAccessPlan.mem_nodes_of_reads hground _ hvalid hreads))
  rw [reads_intersectionFromSources hne, reads_intersect]
  exact h id

/-- Dropping sources from a union keeps it when each dropped node is read elsewhere. -/
theorem reads_union_congr (hsub : sources ⊆ plans)
    (hcover : ∀ plan ∈ plans, plan.reads graph env id →
      ∃ source ∈ sources, source.reads graph env id) :
    (unionFromSources sources).reads graph env id ↔
      (union plans).reads graph env id := by
  rw [reads_unionFromSources, reads_union]
  constructor
  · rintro ⟨source, hmem, hreads⟩
    exact ⟨source, hsub hmem, hreads⟩
  · rintro ⟨plan, hmem, hreads⟩
    exact hcover plan hmem hreads

/-! ## §2. Canonical sets. -/

mutual

/-- `flatten_union`: the sources, and whether anything was taken apart. -/
def flattenUnion : NodeAccessPlan → List NodeAccessPlan × Bool
  | .empty => ([], true)
  | .union children => ((flattenUnionList children).1, true)
  | plan => ([plan], false)

/-- The sources of every plan, and whether one was a union. -/
def flattenUnionList : List NodeAccessPlan → List NodeAccessPlan × Bool
  | [] => ([], false)
  | plan :: plans =>
    ((flattenUnion plan).1 ++ (flattenUnionList plans).1,
      (flattenUnion plan).2 || (flattenUnionList plans).2)

end

mutual

/-- `flatten_intersection`. -/
def flattenIntersection : NodeAccessPlan → List NodeAccessPlan × Bool
  | .intersect children => ((flattenIntersectionList children).1, true)
  | plan => ([plan], false)

/-- The sources of every plan, and whether one was an intersection. -/
def flattenIntersectionList : List NodeAccessPlan → List NodeAccessPlan × Bool
  | [] => ([], false)
  | plan :: plans =>
    ((flattenIntersection plan).1 ++ (flattenIntersectionList plans).1,
      (flattenIntersection plan).2 || (flattenIntersectionList plans).2)

end

/-- `dedupe_access_sources`; the bucket of a digest holds the sources seen with it. -/
def dedupeSources (digest : NodeAccessPlan → Nat) (seen : List NodeAccessPlan) :
    List NodeAccessPlan → List NodeAccessPlan × Bool
  | [] => ([], false)
  | plan :: plans =>
    if seen.any fun existing => digest existing == digest plan && existing.beq plan then
      ((dedupeSources digest seen plans).1, true)
    else
      (plan :: (dedupeSources digest (plan :: seen) plans).1,
        (dedupeSources digest (plan :: seen) plans).2)

/-- The plan that reads nothing. -/
def NodeAccessPlan.isEmpty : NodeAccessPlan → Bool
  | .empty => true
  | _ => false

/-- `normalize_union`; `none` when nothing changed. -/
def normalizeUnion (digest : NodeAccessPlan → Nat) (plans : List NodeAccessPlan) :
    Option NodeAccessPlan :=
  let flattened := flattenUnionList plans
  let deduped := dedupeSources digest [] flattened.1
  if flattened.2 || deduped.2 then some (unionFromSources deduped.1) else none

/-- `normalize_intersection`. -/
def normalizeIntersection (digest : NodeAccessPlan → Nat) (plans : List NodeAccessPlan) :
    Option NodeAccessPlan :=
  if plans.any NodeAccessPlan.isEmpty then some .empty
  else
    let flattened := flattenIntersectionList plans
    let deduped := dedupeSources digest [] flattened.1
    if flattened.2 || deduped.2 then some (intersectionFromSources deduped.1) else none

/-- `canonical::node::simplify`. -/
def simplifyCanonical (digest : NodeAccessPlan → Nat) : NodeAccessPlan → Option NodeAccessPlan
  | .union plans => normalizeUnion digest plans
  | .intersect plans => normalizeIntersection digest plans
  | _ => none

mutual

theorem reads_flattenUnion : ∀ plan : NodeAccessPlan,
    (∃ source ∈ (flattenUnion plan).1, source.reads graph env id) ↔ plan.reads graph env id
  | .empty => by simp [flattenUnion, reads]
  | .union children => by
    rw [flattenUnion, reads_flattenUnionList children, reads_union]
  | .pointIds _ | .allScan | .labelScan _ | .equalityIndex _ _ _ | .rangeIndex _ _ _ _
  | .search _ _ | .source _ | .intersect _ => by simp [flattenUnion]

theorem reads_flattenUnionList : ∀ plans : List NodeAccessPlan,
    (∃ source ∈ (flattenUnionList plans).1, source.reads graph env id) ↔
      ∃ plan ∈ plans, plan.reads graph env id
  | [] => by simp [flattenUnionList]
  | plan :: plans => by
    rw [exists_mem_cons_iff, ← reads_flattenUnion plan, ← reads_flattenUnionList plans,
      flattenUnionList]
    simp only [mem_append, or_and_right, exists_or]

end

mutual

theorem reads_flattenIntersection : ∀ plan : NodeAccessPlan,
    (∀ source ∈ (flattenIntersection plan).1, source.reads graph env id) ↔ plan.reads graph env id
  | .intersect children => by
    rw [flattenIntersection, reads_flattenIntersectionList children,
      reads_intersect]
  | .empty | .pointIds _ | .allScan | .labelScan _ | .equalityIndex _ _ _ | .rangeIndex _ _ _ _
  | .search _ _ | .source _ | .union _ => by simp [flattenIntersection]

theorem reads_flattenIntersectionList : ∀ plans : List NodeAccessPlan,
    (∀ source ∈ (flattenIntersectionList plans).1, source.reads graph env id) ↔
      ∀ plan ∈ plans, plan.reads graph env id
  | [] => by simp [flattenIntersectionList]
  | plan :: plans => by
    rw [forall_mem_cons, ← reads_flattenIntersection plan,
      ← reads_flattenIntersectionList plans, flattenIntersectionList, forall_mem_append]

end

section

variable (digest : NodeAccessPlan → Nat)
include digest

theorem dedupeSources_subset (seen plans : List NodeAccessPlan) :
    (dedupeSources digest seen plans).1 ⊆ plans := by
  induction plans generalizing seen with
  | nil => exact fun _ h => h
  | cons plan plans ih =>
    unfold dedupeSources
    split
    · exact fun source h => mem_cons_of_mem _ (ih seen h)
    · exact cons_subset_cons plan (ih (plan :: seen))

/-- Every source is kept or equal to one seen before it. -/
theorem exists_dedupeSources (seen : List NodeAccessPlan) {plan : NodeAccessPlan} (h : plan ∈ plans) :
    ∃ kept, (kept ∈ seen ∨ kept ∈ (dedupeSources digest seen plans).1) ∧
      (kept = plan ∨ kept.beq plan = true) := by
  induction plans generalizing seen with
  | nil => cases h
  | cons head tail ih =>
    unfold dedupeSources
    split
    next hseen =>
      rcases mem_cons.mp h with rfl | h
      · obtain ⟨kept, hmem, hsame⟩ := any_eq_true.mp hseen
        exact ⟨kept, .inl hmem, .inr (Bool.and_eq_true_iff.mp hsame).2⟩
      · exact ih seen h
    next =>
      rcases mem_cons.mp h with rfl | h
      · exact ⟨plan, .inr (mem_cons_self ..), .inl rfl⟩
      · obtain ⟨kept, hmem, hsame⟩ := ih (head :: seen) h
        refine ⟨kept, ?_, hsame⟩
        rcases hmem with hmem | hmem
        · rcases mem_cons.mp hmem with rfl | hmem
          · exact .inr (mem_cons_self ..)
          · exact .inl hmem
        · exact .inr (mem_cons_of_mem _ hmem)

theorem exists_kept
    {plan : NodeAccessPlan} (h : plan ∈ plans) :
    ∃ kept ∈ (dedupeSources digest [] plans).1,
      (kept.reads graph env id ↔ plan.reads graph env id) := by
  obtain ⟨kept, hmem, hsame⟩ := exists_dedupeSources digest [] h
  refine ⟨kept, hmem.resolve_left not_mem_nil, ?_⟩
  rcases hsame with rfl | hbeq
  · exact Iff.rfl
  · exact reads_of_beq hbeq

end

theorem simplifyCanonical_reads (hground : env.Grounded graph) (digest : NodeAccessPlan → Nat)
    {plan result : NodeAccessPlan} (hvalid : plan.Valid graph)
    (h : simplifyCanonical digest plan = some result) :
    result.reads graph env id ↔ plan.reads graph env id := by
  unfold simplifyCanonical at h
  split at h
  next plans =>
    simp only [normalizeUnion, ite_none_right_eq_some, Option.some.injEq] at h
    obtain ⟨-, rfl⟩ := h
    rw [reads_union_congr (dedupeSources_subset digest [] _), reads_union,
      reads_flattenUnionList, reads_union]
    intro source hmem hreads
    obtain ⟨kept, hkept, hsame⟩ := exists_kept digest hmem
    exact ⟨kept, hkept, hsame.mpr hreads⟩
  next plans =>
    unfold normalizeIntersection at h
    split at h
    next hempty =>
      -- one empty source leaves nothing
      cases h
      obtain ⟨plan, hmem, hplan⟩ := any_eq_true.mp hempty
      cases plan <;> cases hplan
      simp only [reads_intersect]
      exact ⟨fun hfalse => hfalse.elim, fun hreads => hreads .empty hmem⟩
    next =>
      simp only [ite_none_right_eq_some, Option.some.injEq] at h
      obtain ⟨-, rfl⟩ := h
      refine reads_intersection_congr hground hvalid fun id => ?_
      rw [← reads_flattenIntersectionList plans]
      constructor
      · intro hreads source hmem
        obtain ⟨kept, hkept, hsame⟩ := exists_kept digest hmem
        exact hsame.mp (hreads kept hkept)
      · exact fun hreads source hmem => hreads source (dedupeSources_subset digest [] _ hmem)
  next => cases h

/-! ## §3. Covered sources. -/

/-- `remove_access_sources_when`. -/
def removeAccessSourcesWhen (plans : List NodeAccessPlan)
    (shouldRemove : Nat → NodeAccessPlan → Bool) : Option (List NodeAccessPlan) :=
  if plans.zipIdx.any fun entry => shouldRemove entry.2 entry.1 then
    some ((plans.zipIdx.filter fun entry => !shouldRemove entry.2 entry.1).map Prod.fst)
  else none

/-- Of sources that subsume each other the first is kept. -/
def removeSubsumedUnionSources (plans : List NodeAccessPlan) : Option (List NodeAccessPlan) :=
  removeAccessSourcesWhen plans fun index source =>
    plans.zipIdx.any fun entry =>
      entry.2 != index && subsumes entry.1 source &&
        (!subsumes source entry.1 || decide (entry.2 < index))

/-- Of sources that subsume each other the first is kept. -/
def removeRedundantIntersectionSources (plans : List NodeAccessPlan) :
    Option (List NodeAccessPlan) :=
  removeAccessSourcesWhen plans fun index source =>
    plans.zipIdx.any fun entry =>
      entry.2 != index && subsumes source entry.1 &&
        (!subsumes entry.1 source || decide (entry.2 < index))

/-- `subsumption::node::simplify`. -/
def simplifySubsumption : NodeAccessPlan → Option NodeAccessPlan
  | .union plans => (removeSubsumedUnionSources plans).map unionFromSources
  | .intersect plans => (removeRedundantIntersectionSources plans).map intersectionFromSources
  | _ => none

variable {plans sources : List NodeAccessPlan} {shouldRemove : Nat → NodeAccessPlan → Bool}

theorem removeAccessSourcesWhen_subset
    (h : removeAccessSourcesWhen plans shouldRemove = some sources) : sources ⊆ plans := by
  simp only [removeAccessSourcesWhen, ite_none_right_eq_some, Option.some.injEq] at h
  obtain ⟨-, rfl⟩ := h
  intro source hmem
  obtain ⟨entry, hentry, rfl⟩ := mem_map.mp hmem
  exact fst_mem_of_mem_zipIdx (mem_filter.mp hentry).1

theorem mem_removeAccessSourcesWhen
    (h : removeAccessSourcesWhen plans shouldRemove = some sources) {k : Fin plans.length}
    (hk : shouldRemove k (plans.get k) = false) : plans.get k ∈ sources := by
  simp only [removeAccessSourcesWhen, ite_none_right_eq_some, Option.some.injEq] at h
  obtain ⟨-, rfl⟩ := h
  refine mem_map.mpr ⟨(plans.get k, k), mem_filter.mpr ⟨?_, by simpa using hk⟩, rfl⟩
  exact mk_mem_zipIdx_iff_getElem?.mpr (by simp)

variable {R : NodeAccessPlan → NodeAccessPlan → Prop}

/-- Whichever way a source is dropped for a covering one, each source has a
surviving source that covers it. -/
theorem exists_kept_of_dominates (hR : ∀ a b c, R a b → R b c → R a c)
    (h : removeAccessSourcesWhen plans shouldRemove = some sources)
    (hremove : ∀ k : Fin plans.length, shouldRemove k (plans.get k) = true →
      ∃ j, Dominates R plans j k) {plan : NodeAccessPlan} (hmem : plan ∈ plans) :
    ∃ source ∈ sources, source = plan ∨ R source plan := by
  obtain ⟨i, rfl⟩ := get_of_mem hmem
  obtain ⟨k, hundominated, hcover⟩ := exists_undominated hR i
  refine ⟨plans.get k, mem_removeAccessSourcesWhen h ?_, ?_⟩
  · cases hk : shouldRemove k (plans.get k) with
    | false => rfl
    | true =>
      obtain ⟨j, hj⟩ := hremove k hk
      exact absurd hj (hundominated j)
  · rcases hcover with rfl | hcover
    · exact .inl rfl
    · exact .inr hcover

/-- An entry that makes the source at `k` superfluous, by either order of the test. -/
theorem dominates_of_any (test : NodeAccessPlan → NodeAccessPlan → Bool)
    (hR : ∀ a b, a ∈ plans → b ∈ plans → (R a b ↔ test a b = true)) {k : Fin plans.length}
    (h : (plans.zipIdx.any fun entry => entry.2 != k.val && test entry.1 (plans.get k) &&
      (!test (plans.get k) entry.1 || decide (entry.2 < k.val))) = true) :
    ∃ j, Dominates R plans j k := by
  obtain ⟨⟨other, index⟩, hmem, hentry⟩ := List.any_eq_true.mp h
  obtain ⟨hindex, hother⟩ := List.getElem?_eq_some_iff.mp (List.mk_mem_zipIdx_iff_getElem?.mp hmem)
  simp only [Bool.and_eq_true, Bool.or_eq_true, Bool.not_eq_true', decide_eq_true_eq] at hentry
  obtain ⟨⟨-, hcovers⟩, hfirst⟩ := hentry
  have hother' : plans.get ⟨index, hindex⟩ = other := hother
  refine ⟨⟨index, hindex⟩, (hR _ _ (get_mem ..) (get_mem ..)).mpr ?_, ?_⟩
  · rwa [hother']
  · rw [hR _ _ (get_mem ..) (get_mem ..), hother']
    exact hfirst.imp_left fun hnot => by rw [hnot]; exact Bool.false_ne_true

theorem simplifySubsumption_reads (hground : env.Grounded graph) {plan result : NodeAccessPlan}
    (hvalid : plan.Valid graph) (h : simplifySubsumption plan = some result) :
    result.reads graph env id ↔ plan.reads graph env id := by
  unfold simplifySubsumption at h
  split at h
  next plans =>
    obtain ⟨sources, hsources, rfl⟩ := map_eq_some_iff.mp h
    have hchild : ∀ plan ∈ plans, plan.Valid graph := fun _ => .child (.inl hvalid)
    refine reads_union_congr (removeAccessSourcesWhen_subset hsources) fun plan hmem hreads => ?_
    let R : NodeAccessPlan → NodeAccessPlan → Prop :=
      fun a b => subsumes a b = true ∧ b.Valid graph
    have hR : ∀ a b c, R a b → R b c → R a c :=
      fun a b c hab hbc => ⟨subsumes_trans hbc.2 hab.1 hbc.1, hbc.2⟩
    obtain ⟨source, hsource, rfl | hcovers⟩ := exists_kept_of_dominates hR hsources
      (fun k hk => dominates_of_any subsumes
        (fun a b _ hb => and_iff_left (hchild b hb)) hk) hmem
    · exact ⟨source, hsource, hreads⟩
    · exact ⟨source, hsource, reads_of_subsumes hground hcovers.2 hcovers.1 hreads⟩
  next plans =>
    obtain ⟨sources, hsources, rfl⟩ := map_eq_some_iff.mp h
    have hchild : ∀ plan ∈ plans, plan.Valid graph := fun _ => .child (.inr hvalid)
    refine reads_intersection_congr hground hvalid fun id => ⟨fun hreads plan hmem => ?_, ?_⟩
    · -- here a source goes when another one is contained in it
      let R : NodeAccessPlan → NodeAccessPlan → Prop :=
        fun a b => subsumes b a = true ∧ a.Valid graph
      have hR : ∀ a b c, R a b → R b c → R a c :=
        fun a b c hab hbc => ⟨subsumes_trans hab.2 hbc.1 hab.1, hab.2⟩
      obtain ⟨source, hsource, rfl | hcovers⟩ := exists_kept_of_dominates hR hsources
        (fun k hk => dominates_of_any (fun a b => subsumes b a)
          (fun a b ha _ => and_iff_left (hchild a ha)) hk) hmem
      · exact hreads source hsource
      · exact reads_of_subsumes hground hcovers.2 hcovers.1 (hreads source hsource)
    · exact fun hreads source hmem => hreads source (removeAccessSourcesWhen_subset hsources hmem)
  next => cases h

/-! ## §4. Ranges on one key. -/

/-- `merge_range_sources`. -/
def mergeRangeSources : NodeAccessPlan → NodeAccessPlan → Option NodeAccessPlan
  | .rangeIndex index key leftRange _, .rangeIndex _ rightKey rightRange _ =>
    if key = rightKey then
      (leftRange.intersect rightRange).map fun range => .rangeIndex index key range .forward
    else none
  | _, _ => none

/-- The first group the source merges with, replaced by the merged source. -/
def mergeIntoGroups (source : NodeAccessPlan) :
    List (Nat × NodeAccessPlan) → Option (List (Nat × NodeAccessPlan))
  | [] => none
  | (index, existing) :: groups =>
    match mergeRangeSources existing source with
    | some merged => some ((index, merged) :: groups)
    | none => (mergeIntoGroups source groups).map ((index, existing) :: ·)

/-- The slots still to merge and the merged groups, by the slot they took. -/
structure MergeState where
  slots : List (Option NodeAccessPlan)
  groups : List (Nat × NodeAccessPlan)
  changed : Bool

/-- One round of `merge_bucket`: the source leaves its slot and joins a group. -/
def mergeStep (state : MergeState) (index : Nat) : MergeState :=
  match state.slots[index]? with
  | some (some source) =>
    match mergeIntoGroups source state.groups with
    | some groups => ⟨state.slots.set index none, groups, true⟩
    | none => ⟨state.slots.set index none, state.groups ++ [(index, source)], state.changed⟩
  | _ => state

/-- The merged groups go back to their slots. -/
def restoreGroups (slots : List (Option NodeAccessPlan)) (groups : List (Nat × NodeAccessPlan)) :
    List (Option NodeAccessPlan) :=
  groups.foldl (fun slots group => slots.set group.1 (some group.2)) slots

/-- `merge_bucket`. -/
def mergeBucket (slots : List (Option NodeAccessPlan)) (indexes : List Nat) :
    List (Option NodeAccessPlan) × Bool :=
  let state := indexes.foldl mergeStep ⟨slots, [], false⟩
  (restoreGroups state.slots state.groups, state.changed)

/-- The ranges of an intersection with their digests, by position. -/
def rangeDigests (digest : ScopedPropertyDirectionKey → Nat) (plans : List NodeAccessPlan) :
    List (Nat × Nat) :=
  plans.zipIdx.filterMap fun entry =>
    (rangeIndexParts entry.1).map fun parts => (digest parts.1, entry.2)

/-- The buckets in digest order, each with its positions. -/
def rangeBuckets (entries : List (Nat × Nat)) : List (List Nat) :=
  ((entries.map Prod.fst).dedup.mergeSort (· ≤ ·)).map fun digest =>
    (entries.filter fun entry => entry.1 == digest).map Prod.snd

/-- `merge_intersection_sources`. -/
def mergeIntersectionSources (digest : ScopedPropertyDirectionKey → Nat)
    (plans : List NodeAccessPlan) : Option (List NodeAccessPlan) :=
  let merged := (rangeBuckets (rangeDigests digest plans)).foldl
    (fun state indexes =>
      ((mergeBucket state.1 indexes).1, state.2 || (mergeBucket state.1 indexes).2))
    (plans.map some, false)
  if merged.2 then some (merged.1.filterMap fun slot => slot) else none

/-- `range::node::simplify`. -/
def simplifyRange (digest : ScopedPropertyDirectionKey → Nat) :
    NodeAccessPlan → Option NodeAccessPlan
  | .intersect plans => (mergeIntersectionSources digest plans).map intersectionFromSources
  | _ => none

/-- The node is read by every source still in a slot. -/
def SlotsRead (graph : StoredGraph) (env : Environment) (id : Nat)
    (slots : List (Option NodeAccessPlan)) : Prop :=
  ∀ (index : Nat) (source : NodeAccessPlan), slots[index]? = some (some source) →
    source.reads graph env id

theorem reads_mergeRangeSources {left right merged : NodeAccessPlan}
    (h : mergeRangeSources left right = some merged) :
    merged.reads graph env id ↔ left.reads graph env id ∧ right.reads graph env id := by
  cases left <;> first | cases h | skip
  case rangeIndex index key range iteration =>
    cases right <;> first | cases h | skip
    case rangeIndex index' key' range' iteration' =>
      simp only [mergeRangeSources, ite_none_right_eq_some] at h
      obtain ⟨rfl, h⟩ := h
      obtain ⟨both, hboth, rfl⟩ := map_eq_some_iff.mp h
      simp only [reads, IndexRange.selects_intersect hboth, Bool.and_eq_true]
      constructor
      · rintro ⟨hnode, hlabel, x, hx, hleft, hright⟩
        exact ⟨⟨hnode, hlabel, x, hx, hleft⟩, ⟨hnode, hlabel, x, hx, hright⟩⟩
      · rintro ⟨⟨hnode, hlabel, x, hx, hleft⟩, ⟨-, -, y, hy, hright⟩⟩
        cases hx.symm.trans hy
        exact ⟨hnode, hlabel, x, hx, hleft, hright⟩

/-- Merging into a group keeps the positions and adds the source's condition. -/
theorem reads_mergeIntoGroups {source : NodeAccessPlan} {groups merged : List (Nat × NodeAccessPlan)}
    (h : mergeIntoGroups source groups = some merged) :
    merged.map Prod.fst = groups.map Prod.fst ∧
      ((∀ group ∈ merged, group.2.reads graph env id) ↔
        (∀ group ∈ groups, group.2.reads graph env id) ∧ source.reads graph env id) := by
  induction groups generalizing merged with
  | nil => cases h
  | cons head tail ih =>
    unfold mergeIntoGroups at h
    split at h
    next both hboth =>
      cases h
      simp only [forall_mem_cons, reads_mergeRangeSources hboth]
      tauto
    next =>
      obtain ⟨rest, hrest, rfl⟩ := map_eq_some_iff.mp h
      obtain ⟨hpositions, hreads⟩ := ih hrest
      simp only [map_cons, forall_mem_cons]
      tauto

variable {slots : List (Option NodeAccessPlan)}

theorem slotsRead_take {index : Nat} {source : NodeAccessPlan}
    (h : slots[index]? = some (some source)) :
    SlotsRead graph env id slots ↔
      SlotsRead graph env id (slots.set index none) ∧ source.reads graph env id := by
  constructor
  · intro hreads
    refine ⟨fun i p hp => ?_, hreads index source h⟩
    rw [getElem?_set] at hp
    split at hp
    next => split at hp <;> cases hp
    next => exact hreads i p hp
  · rintro ⟨hreads, hsource⟩ i p hp
    by_cases hi : index = i
    · subst hi
      cases h.symm.trans hp
      exact hsource
    · exact hreads i p (by rw [getElem?_set_ne hi]; exact hp)

theorem slotsRead_put {index : Nat} (h : slots[index]? = some none) (source : NodeAccessPlan) :
    SlotsRead graph env id (slots.set index (some source)) ↔
      SlotsRead graph env id slots ∧ source.reads graph env id := by
  obtain ⟨hindex, hnone⟩ := List.getElem?_eq_some_iff.mp h
  rw [slotsRead_take (getElem?_set_self hindex), set_set, ← hnone, set_getElem_self]

/-- What every round of a bucket keeps: the groups hold the sources of vacated
slots, one group a slot, and slots and groups together read the same nodes. -/
structure MergeInv (graph : StoredGraph) (env : Environment) (id : Nat)
    (original : List (Option NodeAccessPlan)) (state : MergeState) : Prop where
  vacated : ∀ group ∈ state.groups, state.slots[group.1]? = some none
  distinct : (state.groups.map Prod.fst).Nodup
  reads : SlotsRead graph env id state.slots ∧ (∀ group ∈ state.groups, group.2.reads graph env id) ↔
    SlotsRead graph env id original

theorem MergeInv.step {original : List (Option NodeAccessPlan)} {state : MergeState}
    (h : MergeInv graph env id original state) (index : Nat) :
    MergeInv graph env id original (mergeStep state index) := by
  unfold mergeStep
  split
  next source hsource =>
    have htake := @slotsRead_take graph env id _ _ _ hsource
    have hkeep : ∀ i : Nat, state.slots[i]? = some none →
        (state.slots.set index none)[i]? = some none := by
      intro i hi
      have hne : index ≠ i := by
        rintro rfl
        cases hsource.symm.trans hi
      rw [getElem?_set_ne hne, hi]
    split
    next groups hgroups =>
      obtain ⟨hpositions, hreads⟩ := @reads_mergeIntoGroups graph env id _ _ _ hgroups
      refine ⟨?_, hpositions ▸ h.distinct, ?_⟩
      · intro group hmem
        have hposition : group.1 ∈ state.groups.map Prod.fst :=
          hpositions ▸ mem_map_of_mem hmem
        obtain ⟨group', hmem', hsame⟩ := List.mem_map.mp hposition
        exact hsame ▸ hkeep _ (h.vacated group' hmem')
      · rw [← h.reads]
        tauto
    next =>
      have hindex : index < state.slots.length := (List.getElem?_eq_some_iff.mp hsource).1
      refine ⟨?_, ?_, ?_⟩
      · intro group hmem
        rcases List.mem_append.mp hmem with hmem | hmem
        · exact hkeep _ (h.vacated group hmem)
        · cases List.mem_singleton.mp hmem
          exact getElem?_set_self hindex
      · rw [map_append, nodup_append]
        refine ⟨h.distinct, nodup_singleton _, ?_⟩
        intro i hi j hj
        cases List.mem_singleton.mp hj
        obtain ⟨group, hmem, rfl⟩ := List.mem_map.mp hi
        rintro hsame
        have hvacated := h.vacated group hmem
        rw [hsame] at hvacated
        cases hsource.symm.trans hvacated
      · rw [← h.reads]
        simp only [forall_mem_append, forall_mem_singleton]
        tauto
  next => exact h

theorem MergeInv.run {original : List (Option NodeAccessPlan)} {state : MergeState}
    (h : MergeInv graph env id original state) (indexes : List Nat) :
    MergeInv graph env id original (indexes.foldl mergeStep state) := by
  induction indexes generalizing state with
  | nil => exact h
  | cons index indexes ih => exact ih (h.step index)

theorem slotsRead_restoreGroups
    {groups : List (Nat × NodeAccessPlan)} (hvacated : ∀ group ∈ groups, slots[group.1]? = some none)
    (hdistinct : (groups.map Prod.fst).Nodup) :
    SlotsRead graph env id (restoreGroups slots groups) ↔
      SlotsRead graph env id slots ∧ ∀ group ∈ groups, group.2.reads graph env id := by
  induction groups generalizing slots with
  | nil => simp [restoreGroups]
  | cons group groups ih =>
    rw [map_cons, nodup_cons] at hdistinct
    rw [forall_mem_cons] at hvacated
    have hrest : ∀ other ∈ groups, (slots.set group.1 (some group.2))[other.1]? = some none := by
      intro other hmem
      have hne : group.1 ≠ other.1 := by
        intro hsame
        exact hdistinct.1 (hsame ▸ mem_map_of_mem hmem)
      rw [getElem?_set_ne hne]
      exact hvacated.2 other hmem
    show SlotsRead graph env id (restoreGroups (slots.set group.1 (some group.2)) groups) ↔ _
    rw [ih hrest hdistinct.2, slotsRead_put hvacated.1, forall_mem_cons, and_assoc]

/-- **A merged bucket reads the same nodes.** -/
theorem slotsRead_mergeBucket (slots : List (Option NodeAccessPlan)) (indexes : List Nat) :
    SlotsRead graph env id (mergeBucket slots indexes).1 ↔ SlotsRead graph env id slots := by
  have hstart : MergeInv graph env id slots ⟨slots, [], false⟩ := ⟨by simp, by simp, by simp⟩
  have h := hstart.run indexes
  show SlotsRead graph env id (restoreGroups _ _) ↔ _
  rw [slotsRead_restoreGroups h.vacated h.distinct, h.reads]

theorem slotsRead_iff_filterMap (slots : List (Option NodeAccessPlan)) :
    (∀ source ∈ slots.filterMap (fun slot => slot), source.reads graph env id) ↔
      SlotsRead graph env id slots := by
  constructor
  · intro h index source hsource
    exact h source (mem_filterMap.mpr ⟨some source, mem_of_getElem? hsource, rfl⟩)
  · intro h source hmem
    obtain ⟨slot, hslot, rfl⟩ := mem_filterMap.mp hmem
    obtain ⟨index, hindex⟩ := getElem?_of_mem hslot
    exact h index source hindex

theorem slotsRead_map_some (plans : List NodeAccessPlan) :
    SlotsRead graph env id (plans.map some) ↔ ∀ plan ∈ plans, plan.reads graph env id := by
  rw [← slotsRead_iff_filterMap]
  simp

theorem simplifyRange_reads (hground : env.Grounded graph)
    (digest : ScopedPropertyDirectionKey → Nat) {plan result : NodeAccessPlan}
    (hvalid : plan.Valid graph) (h : simplifyRange digest plan = some result) :
    result.reads graph env id ↔ plan.reads graph env id := by
  unfold simplifyRange at h
  split at h
  next plans =>
    obtain ⟨sources, hsources, rfl⟩ := map_eq_some_iff.mp h
    refine reads_intersection_congr hground hvalid fun id => ?_
    simp only [mergeIntersectionSources, ite_none_right_eq_some, Option.some.injEq] at hsources
    obtain ⟨-, rfl⟩ := hsources
    rw [slotsRead_iff_filterMap, ← slotsRead_map_some plans]
    -- the buckets one after the other
    have hbuckets : ∀ (buckets : List (List Nat)) (state : List (Option NodeAccessPlan) × Bool),
        SlotsRead graph env id (buckets.foldl (fun state indexes =>
          ((mergeBucket state.1 indexes).1, state.2 || (mergeBucket state.1 indexes).2)) state).1 ↔
          SlotsRead graph env id state.1 := by
      intro buckets
      induction buckets with
      | nil => exact fun _ => Iff.rfl
      | cons indexes buckets ih =>
        intro state
        rw [foldl_cons, ih, slotsRead_mergeBucket]
    exact hbuckets _ _
  next => cases h

/-! ## §5. Literal lookups and ranges. -/

/-- A range of the set, with its position. -/
structure RangeBucketEntry where
  index : Nat
  key : ScopedPropertyDirectionKey
  range : IndexRange

/-- The range reads among the plans, with their places. -/
def rangeEntries (plans : List NodeAccessPlan) : List RangeBucketEntry :=
  plans.zipIdx.filterMap fun entry =>
    (rangeIndexParts entry.1).map fun parts => ⟨entry.2, parts.1, parts.2⟩

/-- The bucket of a property's digest. -/
def rangeBucket (digest : String × String → Nat) (plans : List NodeAccessPlan)
    (key : ScopedPropertyKey) : List RangeBucketEntry :=
  (rangeEntries plans).filter fun entry =>
    digest (entry.key.label, entry.key.property) == digest (key.label, key.property)

/-- `equality_union_key`. -/
def equalityUnionKey : List NodeAccessPlan → Option ScopedPropertyKey
  | [] => none
  | first :: rest =>
    (literalEqualityParts first).bind fun parts =>
      if rest.all fun child => (literalEqualityParts child).any fun other => other.1 == parts.1 then
        some parts.1
      else none

/-- The lookups of a union that a range keeps; `none` when one is undecided. -/
def retainedByRange (rangeKey : ScopedPropertyDirectionKey) (range : IndexRange) :
    List NodeAccessPlan → Option (List NodeAccessPlan)
  | [] => some []
  | child :: children =>
    match literalEqualityParts child with
    | none => none
    | some (equalityKey, value) =>
      if equalityKey.label != rangeKey.label || equalityKey.property != rangeKey.property then
        none
      else if range.containsLiteral value.value then
        (retainedByRange rangeKey range children).map (child :: ·)
      else if !range.excludesLiteral value.value then none
      else retainedByRange rangeKey range children

/-- `restrict_equality_union_by_range`. -/
def restrictEqualityUnionByRange (children : List NodeAccessPlan)
    (rangeKey : ScopedPropertyDirectionKey) (range : IndexRange) : Option NodeAccessPlan :=
  (retainedByRange rangeKey range children).map unionFromSources

/-- A union, a range beside it, and what replaces both. -/
structure RangeRestrictedUnion where
  unionIndex : Nat
  rangeIndex : Nat
  replacement : NodeAccessPlan

/-- `find_restriction`. -/
def findRestriction (digest : String × String → Nat) (plans : List NodeAccessPlan) :
    Option RangeRestrictedUnion :=
  plans.zipIdx.findSome? fun source =>
    match source.1 with
    | .union children =>
      (equalityUnionKey children).bind fun unionKey =>
        (rangeBucket digest plans unionKey).findSome? fun entry =>
          (restrictEqualityUnionByRange children entry.key entry.range).map fun replacement =>
            ⟨source.2, entry.index, replacement⟩
    | _ => none

/-- `apply_intersection_restriction`. -/
def applyIntersectionRestriction (digest : String × String → Nat) (plans : List NodeAccessPlan) :
    Option NodeAccessPlan :=
  (findRestriction digest plans).map fun found =>
    if found.replacement.isEmpty then .empty
    else
      intersectionFromSources
        ((((plans.map some).set (min found.unionIndex found.rangeIndex)
          (some found.replacement)).set (max found.unionIndex found.rangeIndex) none).filterMap
            fun slot => slot)

/-- `equality_range::intersection::node::simplify`. -/
def simplifyEqualityRange (digest : String × String → Nat) :
    NodeAccessPlan → Option NodeAccessPlan
  | .intersect plans => applyIntersectionRestriction digest plans
  | _ => none

/-- `equality_covered_by_any_range`. -/
def equalityCoveredByAnyRange (digest : String × String → Nat) (plans : List NodeAccessPlan)
    (source : NodeAccessPlan) : Bool :=
  (literalEqualityParts source).any fun parts =>
    (rangeBucket digest plans parts.1).any fun entry =>
      entry.key.label == parts.1.label && entry.key.property == parts.1.property &&
        entry.range.containsLiteral parts.2.value

/-- `equality_range::range_union::node::simplify`. -/
def simplifyRangeUnion (digest : String × String → Nat) :
    NodeAccessPlan → Option NodeAccessPlan
  | .union plans =>
    if plans.any fun source => equalityCoveredByAnyRange digest plans source then
      some (unionFromSources
        (plans.filter fun source => !equalityCoveredByAnyRange digest plans source))
    else none
  | _ => none

theorem mem_rangeEntries {entry : RangeBucketEntry}
    (h : entry ∈ rangeEntries plans) :
    ∃ index iteration,
      plans[entry.index]? = some (.rangeIndex index entry.key entry.range iteration) := by
  obtain ⟨⟨plan, position⟩, hmem, hparts⟩ := mem_filterMap.mp h
  obtain ⟨⟨key, range⟩, hrange, rfl⟩ := map_eq_some_iff.mp hparts
  obtain ⟨index, iteration, rfl⟩ := rangeIndexParts_eq hrange
  exact ⟨index, iteration, mk_mem_zipIdx_iff_getElem?.mp hmem⟩

/-- A range and a literal lookup of one property: the nodes of the lookup are all in
the range, or none is. -/
theorem retainedByRange_reads {rangeKey : ScopedPropertyDirectionKey} {range : IndexRange}
    {index : String} {iteration : RangeScanIteration} {children retained : List NodeAccessPlan}
    (h : retainedByRange rangeKey range children = some retained) :
    (∃ child ∈ retained, child.reads graph env id) ↔
      (∃ child ∈ children, child.reads graph env id) ∧
        (rangeIndex index rangeKey range iteration).reads graph env id := by
  induction children generalizing retained with
  | nil =>
    cases h
    simp
  | cons child children ih =>
    unfold retainedByRange at h
    split at h
    next => cases h
    next equalityKey value hparts =>
      obtain ⟨index', rfl⟩ := literalEqualityParts_eq hparts
      split at h
      next => cases h
      next hkeys =>
        simp only [Bool.or_eq_true, bne_iff_ne, not_or, not_not] at hkeys
        obtain ⟨hlabel, hproperty⟩ := hkeys
        split at h
        next hcontains =>
          obtain ⟨rest, hrest, rfl⟩ := map_eq_some_iff.mp h
          have hinside : (equalityIndex index' equalityKey (.literal value)).reads
              graph env id → (rangeIndex index rangeKey range iteration).reads
                graph env id := by
            apply reads_of_leafSubsumes
            simp [leafSubsumes, hlabel, hproperty, hcontains]
          rw [exists_mem_cons_iff, exists_mem_cons_iff, ih hrest]
          tauto
        next =>
          split_ifs at h with hexcludes
          have hconflict : ¬((equalityIndex index' equalityKey
              (.literal value)).reads graph env id ∧
              (rangeIndex index rangeKey range iteration).reads graph env id) := by
            apply literalEqualityRangeConflict_sound
            simpa [literalEqualityRangeConflict, literalEqualityParts, rangeIndexParts, hlabel,
              hproperty] using hexcludes
          rw [exists_mem_cons_iff, ih h]
          tauto

theorem findRestriction_eq {digest : String × String → Nat}
    {found : RangeRestrictedUnion} (h : findRestriction digest plans = some found) :
    ∃ children index key range iteration retained,
      plans[found.unionIndex]? = some (.union children) ∧
        plans[found.rangeIndex]? = some (.rangeIndex index key range iteration) ∧
          retainedByRange key range children = some retained ∧
            found.replacement = unionFromSources retained := by
  obtain ⟨⟨source, position⟩, hmem, hsource⟩ := exists_of_findSome?_eq_some h
  have hposition := mk_mem_zipIdx_iff_getElem?.mp hmem
  cases source <;> first | cases hsource | skip
  case union children =>
    obtain ⟨unionKey, -, hentry⟩ := bind_eq_some_iff.mp hsource
    obtain ⟨entry, hbucket, hrestrict⟩ := exists_of_findSome?_eq_some hentry
    obtain ⟨replacement, hreplacement, rfl⟩ := map_eq_some_iff.mp hrestrict
    obtain ⟨retained, hretained, rfl⟩ := map_eq_some_iff.mp hreplacement
    obtain ⟨index, iteration, hrange⟩ := mem_rangeEntries (mem_filter.mp hbucket).1
    exact ⟨children, index, entry.key, entry.range, iteration, retained, hposition, hrange,
      hretained, rfl⟩

/-- One slot takes what two slots read, the other is vacated. -/
theorem slotsRead_replace {slots : List (Option NodeAccessPlan)} {i j : Nat} (hij : i ≠ j)
    {left right both : NodeAccessPlan} (hi : slots[i]? = some (some left))
    (hj : slots[j]? = some (some right))
    (hboth : both.reads graph env id ↔ left.reads graph env id ∧ right.reads graph env id) :
    SlotsRead graph env id ((slots.set i (some both)).set j none) ↔ SlotsRead graph env id slots := by
  have hilen : i < slots.length := (List.getElem?_eq_some_iff.mp hi).1
  have hi' : (slots.set i none)[i]? = some none := getElem?_set_self hilen
  have hj' : ((slots.set i none).set i (some both))[j]? = some (some right) := by
    rw [getElem?_set_ne hij, getElem?_set_ne hij, hj]
  have hput := @slotsRead_put graph env id _ _ hi' both
  have htake := @slotsRead_take graph env id _ _ _ hj'
  rw [set_set] at hput htake
  have htake' := @slotsRead_take graph env id _ _ _ hi
  have hkept : SlotsRead graph env id ((slots.set i (some both)).set j none) →
      both.reads graph env id :=
    fun h => h i both (by rw [getElem?_set_ne hij.symm, getElem?_set_self hilen])
  tauto

theorem simplifyEqualityRange_reads (hground : env.Grounded graph)
    (digest : String × String → Nat) {plan result : NodeAccessPlan} (hvalid : plan.Valid graph)
    (h : simplifyEqualityRange digest plan = some result) :
    result.reads graph env id ↔ plan.reads graph env id := by
  unfold simplifyEqualityRange at h
  split at h
  next plans =>
    obtain ⟨found, hfound, rfl⟩ := map_eq_some_iff.mp h
    obtain ⟨children, index, key, range, iteration, retained, hunion, hrange, hretained,
      hreplacement⟩ := findRestriction_eq hfound
    have hboth : ∀ id, found.replacement.reads graph env id ↔
        (union children).reads graph env id ∧
          (rangeIndex index key range iteration).reads graph env id := by
      intro id
      rw [hreplacement, reads_unionFromSources, retainedByRange_reads hretained,
        reads_union]
    have hne : found.unionIndex ≠ found.rangeIndex := by
      intro hsame
      simp [hsame, hrange] at hunion
    split
    next hempty =>
      -- nothing is retained, so the two sources share no node
      have hnone : ∀ id, ¬found.replacement.reads graph env id := by
        cases hplan : found.replacement <;> rw [hplan] at hempty <;> cases hempty
        exact fun _ => not_false
      refine ⟨fun hfalse => hfalse.elim, fun hreads => ?_⟩
      rw [reads_intersect] at hreads
      exact hnone id ((hboth id).mpr ⟨hreads _ (mem_of_getElem? hunion),
        hreads _ (mem_of_getElem? hrange)⟩)
    next =>
      refine reads_intersection_congr hground hvalid fun id => ?_
      rw [slotsRead_iff_filterMap, ← slotsRead_map_some plans]
      have hslot : ∀ {i : Nat} {plan : NodeAccessPlan}, plans[i]? = some plan →
          (plans.map some)[i]? = some (some plan) := by
        intro i plan hi
        rw [getElem?_map, hi]
        rfl
      rcases lt_or_gt_of_ne hne with hlt | hlt
      · rw [min_eq_left hlt.le, max_eq_right hlt.le]
        exact slotsRead_replace hne (hslot hunion) (hslot hrange) (hboth id)
      · rw [min_eq_right hlt.le, max_eq_left hlt.le]
        exact slotsRead_replace hne.symm (hslot hrange) (hslot hunion)
          ((hboth id).trans and_comm)
  next => cases h

theorem simplifyRangeUnion_reads (digest : String × String → Nat) {plan result : NodeAccessPlan}
    (h : simplifyRangeUnion digest plan = some result) :
    result.reads graph env id ↔ plan.reads graph env id := by
  unfold simplifyRangeUnion at h
  split at h
  next plans =>
    simp only [Option.ite_none_right_eq_some, Option.some.injEq] at h
    obtain ⟨-, rfl⟩ := h
    refine reads_union_congr (filter_subset_self _) fun source hmem hreads => ?_
    by_cases hcovered : equalityCoveredByAnyRange digest plans source = true
    · -- the covering range is no lookup, so it stays
      obtain ⟨⟨key, value⟩, hparts, hany⟩ := (Option.any_eq_true ..).mp hcovered
      obtain ⟨entry, hbucket, hcontains⟩ := any_eq_true.mp hany
      obtain ⟨index, iteration, hrange⟩ := mem_rangeEntries (mem_filter.mp hbucket).1
      obtain ⟨index', rfl⟩ := literalEqualityParts_eq hparts
      refine ⟨_, mem_filter.mpr ⟨mem_of_getElem? hrange, rfl⟩, ?_⟩
      have hcovers : leafSubsumes (.rangeIndex index entry.key entry.range iteration)
          (.equalityIndex index' key (.literal value)) = true := hcontains
      exact reads_of_leafSubsumes hcovers hreads
    · exact ⟨source, mem_filter.mpr ⟨hmem, by simpa using hcovered⟩, hreads⟩
  next => cases h

/-! ## §6. All rules. -/

/-- The digests the rules bucket by; nothing is assumed of them. -/
structure PlanDigests where
  source : NodeAccessPlan → Nat
  rangeKey : ScopedPropertyDirectionKey → Nat
  property : String × String → Nat

/-- The five families of rewrites. -/
inductive SetRewrite where
  | canonical
  | subsumption
  | rangeIntersection
  | equalityRangeIntersection
  | equalityRangeUnion

/-- The rewritten plan, when the rule fires. -/
def SetRewrite.apply (digests : PlanDigests) : SetRewrite → NodeAccessPlan → Option NodeAccessPlan
  | .canonical, plan => simplifyCanonical digests.source plan
  | .subsumption, plan => simplifySubsumption plan
  | .rangeIntersection, plan => simplifyRange digests.rangeKey plan
  | .equalityRangeIntersection, plan => simplifyEqualityRange digests.property plan
  | .equalityRangeUnion, plan => simplifyRangeUnion digests.property plan

/-- **Every set rewrite that fires keeps the nodes the plan reads**, over every
stored graph that holds the plan's point identifiers and every run whose sources
name stored nodes. -/
theorem set_rewrite_preserves_reads (digests : PlanDigests) (rewrite : SetRewrite)
    {plan result : NodeAccessPlan} (hfires : rewrite.apply digests plan = some result)
    (graph : StoredGraph) (env : Environment) (hvalid : plan.Valid graph)
    (hground : env.Grounded graph) (id : Nat) :
    result.reads graph env id ↔ plan.reads graph env id := by
  cases rewrite with
  | canonical => exact simplifyCanonical_reads hground _ hvalid hfires
  | subsumption => exact simplifySubsumption_reads hground hvalid hfires
  | rangeIntersection => exact simplifyRange_reads hground _ hvalid hfires
  | equalityRangeIntersection => exact simplifyEqualityRange_reads hground _ hvalid hfires
  | equalityRangeUnion => exact simplifyRangeUnion_reads _ hfires

/-- A union of points and a nested union with a repeated and an empty source. -/
def nestedPoints : NodeAccessPlan :=
  .union [.pointIds [7], .union [.empty, .pointIds [7]], .allScan]

theorem set_rewrite_preserves_reads_nestedPoints :
    let digests : PlanDigests := ⟨fun _ => 0, fun _ => 0, fun _ => 0⟩
    let graph : StoredGraph := ⟨[7, 8], fun _ => "Person", fun _ _ => none⟩
    let env : Environment := ⟨fun _ => .null, fun _ _ => false, fun _ _ => false, fun _ _ => false⟩
    SetRewrite.canonical.apply digests nestedPoints = some (.union [.pointIds [7], .allScan]) ∧
      ((union [.pointIds [7], .allScan]).reads graph env 8 ↔
        nestedPoints.reads graph env 8) := by
  intro digests graph env
  have hfires : SetRewrite.canonical.apply digests nestedPoints =
      some (.union [.pointIds [7], .allScan]) := rfl
  refine ⟨hfires, set_rewrite_preserves_reads digests .canonical hfires graph env ?_ ?_ 8⟩
  · simp [nestedPoints, NodeAccessPlan.Valid, NodeAccessPlan.ValidList, graph]
  · intro name id h
    cases h

end HelixDb.Planner
