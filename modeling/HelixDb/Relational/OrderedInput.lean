/-
  HelixDb.Relational.OrderedInput

  **ROWS THAT ARRIVE IN ORDER.**

  Where the first MATCH reads its one node through a range index on the ORDER BY
  property and in its direction, the planner replaces the top-k consumer by a
  window over the rows as they come, which stops once it is full.

    • `totalCmp_of_compare` — values of one range domain sort as their index keys;
    • `RangeEntry.sorted` — what is read in key order is sorted by ORDER BY;
    • `projectBatches_eq` — a window over batches is a window over their rows;
    • `topKBatches_and_window` — what both consumers return.
-/
import HelixDb.Relational.Distinct
import HelixDb.Property.Compare
import HelixDb.Planner.Access
import HelixDb.Relational.Totality

namespace HelixDb.Relational

open HelixDb.Lib HelixDb.Property List
open HelixDb.Planner (RangeScanIteration)

/-! ## §1. The planner's choice. -/

/-- The cursor of an access step, as far as order depends on it. -/
inductive NodeCursor where
  | range (property : String) (direction : RangeIndexDirection) (iteration : RangeScanIteration)
  | other

/-- A planned source: the cursor of every access step, where the step has one. -/
structure PlannedSource where
  access : List (Option NodeCursor)

/-- A column that passes a variable, a literal or a parameter along. -/
def Projection.passesAlong (item : Projection) : Bool :=
  match item.expression with
  | .slot _ | .literal _ | .parameter _ => true
  | _ => false

/-- The input that a sort variable stands for: a projected variable orders by the
input it passes along. -/
def Project.sortInput (projection : Project) (slot : Slot) : Option Slot :=
  match projection.items.find? fun item => item.slot == slot with
  | some item =>
    match item.expression with
    | .slot input => some input
    | _ => none
  | none => some slot

/-- `sort_key`: the node, property and direction that order the rows of a
projection with LIMIT right after the first MATCH. -/
def sortKey (operators : List Operator) : Option (Slot × String × Bool) :=
  match operators with
  | .matchPattern _ _ _ :: .project projection :: _ =>
    if projection.distinct || projection.predicate.isSome || projection.limit.isNone
        || !projection.items.all Projection.passesAlong then none
    else
      match projection.ordering with
      | [⟨.property (.slot slot) key, descending⟩] =>
        (projection.sortInput slot).map fun input => (input, key, descending)
      | _ => none
  | _ => none

/-- The range cursor that alone reads the one scanned node of a MATCH. -/
def soleRange (plan : MatchPlan) (sources : List PlannedSource) :
    Option (Slot × String × RangeIndexDirection) :=
  match plan.steps, sources with
  | [.scan scanned], [source] =>
    match source.access with
    | [some (.range key direction .forward)] => some (scanned, key, direction)
    | _ => none
  | _, _ => none

/-- `ordered_input`. -/
def orderedInput (query : Query) (plan : MatchPlan) (sources : List PlannedSource) : Bool :=
  match sortKey query.operators, query.operators, soleRange plan sources with
  | some (slot, property, descending), .matchPattern pattern false predicate :: _,
      some (scanned, key, direction) =>
      scanned == slot && key == property && ((direction == .asc) != descending)
        && predicate.all fun predicate =>
          (⟨pattern, query.bindings, .validated⟩ : Totality).predicate predicate
  | _, _, _ => false

/-- What the choice says about the projection. -/
structure Project.OrderedBy (projection : Project) (slot : Slot) (property : String)
    (direction : RangeIndexDirection) : Prop where
  all : projection.distinct = false
  unfiltered : projection.predicate = none
  passes : ∀ item ∈ projection.items, item.passesAlong = true
  key : ∃ output, projection.ordering = [⟨.property (.slot output) property, direction == .desc⟩] ∧
    projection.sortInput output = some slot

variable {rest : List Operator}

theorem sortKey_eq_some {pattern : Pattern} {optional : Bool} {predicate : Option Expression}
    {projection : Project} {slot : Slot} {property : String}
    {direction : RangeIndexDirection}
    (h : sortKey (.matchPattern pattern optional predicate :: .project projection :: rest) =
      some (slot, property, direction == .desc)) :
    projection.OrderedBy slot property direction := by
  unfold sortKey at h
  simp only at h
  split_ifs at h with hplain
  split at h
  next output key descending hordering =>
    simp only [Bool.or_eq_true, Bool.not_eq_true', not_or, Bool.not_eq_true,
      Bool.not_eq_false, all_eq_true] at hplain
    obtain ⟨input, hinput, hkey⟩ := Option.map_eq_some_iff.mp h
    cases hkey
    exact {
      all := hplain.1.1.1
      unfiltered := Option.isSome_eq_false_iff.mp hplain.1.1.2 |> Option.isNone_iff_eq_none.mp
      passes := hplain.2
      key := ⟨output, hordering, hinput⟩ }
  next => cases h

theorem orderedInput_orderedBy {query : Query} {plan : MatchPlan} {sources : List PlannedSource}
    {pattern : Pattern} {optional : Bool} {predicate : Option Expression} {projection : Project} (h : orderedInput query plan sources = true)
    (hoperators : query.operators =
      .matchPattern pattern optional predicate :: .project projection :: rest) :
    ∃ slot property direction, soleRange plan sources = some (slot, property, direction) ∧
      projection.OrderedBy slot property direction := by
  unfold orderedInput at h
  split at h
  next slot property descending _ _ _ scanned key direction hsort hmatch hrange =>
    simp only [Bool.and_eq_true, beq_iff_eq, bne_iff_ne, ne_eq] at h
    obtain ⟨⟨⟨hslot, hkey⟩, hdirection⟩, -⟩ := h
    subst hslot hkey
    refine ⟨scanned, key, direction, hrange, ?_⟩
    have hdescending : descending = (direction == .desc) := by
      cases direction <;> cases descending <;> simp_all
    rw [hoperators, hdescending] at hsort
    exact sortKey_eq_some hsort
  next => cases h

/-! ## §2. Index order is value order. -/

/-- A stored scalar as a row value.  Range bounds of a query are numbers or
strings, so nothing else is read through them. -/
def scalarValue : PropertyValue → Option Value
  | .i64 value => some (.integer value)
  | .f64 bits | .f32 bits => some (.float bits)
  | .string value => some (.string value)
  | _ => none

theorem scalarValue_cases {v : PropertyValue} {a : Value} (h : scalarValue v = some a) :
    (v.isNumeric = true ∧ a.isNumber = true ∧ a.number = CanonicalNumber.fromProperty v) ∨
      ∃ text, v = .string text ∧ a = .string text := by
  unfold scalarValue at h
  split at h
  all_goals cases h
  · exact .inl ⟨rfl, rfl, rfl⟩
  · exact .inl ⟨rfl, rfl, rfl⟩
  · exact .inl ⟨rfl, rfl, rfl⟩
  · exact .inr ⟨_, rfl, rfl⟩

/-- **Values of one domain** sort as the index compares them. -/
theorem totalCmp_of_compare {v w : PropertyValue} {a b : Value} {ordering : Ordering}
    (hv : scalarValue v = some a) (hw : scalarValue w = some b)
    (h : v.compare w = some ordering) : a.totalCmp b = ordering := by
  unfold PropertyValue.compare at h
  rcases scalarValue_cases hv with ⟨hnum, ha, hleft⟩ | ⟨text, rfl, rfl⟩
  · rcases scalarValue_cases hw with ⟨hnum', hb, hright⟩ | ⟨text, rfl, rfl⟩
    · rw [hnum, hnum', Bool.and_self, if_pos rfl, ← hleft, ← hright] at h
      have hnumber : a.numberCmp b = some ordering := by
        unfold Value.numberCmp
        cases hx : a.number with
        | none => simp [hx] at h
        | some x =>
          cases hy : b.number with
          | none => simp [hx, hy] at h
          | some y => simpa [hx, hy] using h
      rw [Value.totalCmp_number ha hb]
      simp only [Value.totalNumberCmp, hnumber]
    · cases v <;> simp [PropertyValue.isNumeric] at h hnum
  · rcases scalarValue_cases hw with ⟨hnum', _, _⟩ | ⟨other, rfl, rfl⟩
    · cases w <;> simp [PropertyValue.isNumeric] at h hnum'
    · exact Option.some.inj h

theorem isLE_cmp {α : Type} [LinearOrder α] {x y : α} (h : x ≤ y) : (cmp x y).isLE = true := by
  unfold cmp cmpUsing
  rw [if_neg (not_lt.mpr h)]
  split <;> rfl

/-- A row read through a range index: the node it binds, the key it was found
under and the value that verified it. -/
structure RangeEntry (graph : Graph) (slot : Slot) (property : String)
    (direction : RangeIndexDirection) where
  row : Row
  id : UInt64
  stored : PropertyValue
  value : Value
  canonical : CanonicalRangeValue
  indexed : projectRangeValue stored direction = .indexed canonical
  converted : scalarValue stored = some value
  binds : row slot = .entity (.node id)
  verified : graph.property (.node id) property = .ok value

namespace RangeEntry

variable {graph : Graph} {slot : Slot} {property : String} {direction : RangeIndexDirection}

/-- The entry is not behind the other in the index, and shares its domain. -/
def NotAfter (a b : RangeEntry graph slot property direction) : Prop :=
  ¬ b.canonical.entityKeySuffix b.id < a.canonical.entityKeySuffix a.id ∧
    (a.stored.compare b.stored).isSome = true

/-- **Read in key order, sorted by ORDER BY.** -/
theorem sorted {a b : RangeEntry graph slot property direction} (h : a.NotAfter b)
    (expression : Expression) :
    ((⟨expression, direction == .desc⟩ : OrderKey).compare a.value b.value).isLE = true := by
  obtain ⟨hkeys, hdomain⟩ := h
  obtain ⟨ordering, hordering⟩ := Option.isSome_iff_exists.mp hdomain
  have hvalues := totalCmp_of_compare a.converted b.converted hordering
  obtain ⟨y, hy, hykey⟩ := projectRangeValue_eq_indexed b.indexed
  obtain ⟨x, hx, hxkey⟩ := projectRangeValue_eq_indexed a.indexed
  obtain ⟨k, l, hk, hl, -, hcmp⟩ := PropertyValue.compare_eq_some hordering
  cases hk.symm.trans hxkey
  cases hl.symm.trans hykey
  have hnot : ¬ direction.Before y.key x.key := by
    intro hlt
    unfold CanonicalRangeValue.entityKeySuffix at hkeys
    rw [hx, hy] at hkeys
    exact hkeys ((suffix_lt_iff direction y x b.id a.id).mpr (.inl hlt))
  unfold OrderKey.compare
  rw [hvalues, ← hcmp]
  cases direction with
  | asc =>
    have hle : x.key ≤ y.key := not_lt.mp hnot
    exact isLE_cmp hle
  | desc =>
    have hle : y.key ≤ x.key := not_lt.mp hnot
    show (cmp x.key y.key).swap.isLE = true
    rw [cmp_swap]
    exact isLE_cmp hle

end RangeEntry

/-- The rows come through the index, in its order. -/
def RangeRead (graph : Graph) (slot : Slot) (property : String) (direction : RangeIndexDirection)
    (rows : List Row) : Prop :=
  ∃ entries : List (RangeEntry graph slot property direction),
    entries.map RangeEntry.row = rows ∧ entries.Pairwise RangeEntry.NotAfter

/-! ## §3. Columns that pass along. -/

section Columns

variable {context : Context} {projection : Project} {slot : Slot} {property : String}
  {direction : RangeIndexDirection}

/-- Parameters are validated before a query runs. -/
def Project.ParametersBound (context : Context) (projection : Project) : Prop :=
  ∀ item ∈ projection.items, ∀ name, item.expression = .parameter name →
    (context.parameters.find? fun entry => entry.1 == name).isSome = true

/-- The value an item passes on. -/
def passedValue (context : Context) (row : Row) (item : Projection) : Value :=
  (eval context none row item.expression).toOption.getD .null

theorem eval_passesAlong (hbound : projection.ParametersBound context) {item : Projection}
    (hitem : item ∈ projection.items) (hpasses : item.passesAlong = true) (row : Row) :
    eval context none row item.expression = .ok (passedValue context row item) := by
  unfold passedValue
  unfold Projection.passesAlong at hpasses
  split at hpasses
  next input hexpression => rw [hexpression]; rfl
  next value hexpression => rw [hexpression]; rfl
  next name hexpression =>
    obtain ⟨⟨_, value⟩, hvalue⟩ := Option.isSome_iff_exists.mp (hbound item hitem name hexpression)
    rw [hexpression, eval, Context.parameter, hvalue]
    rfl
  next => cases hpasses

/-- The row a projection of passing columns makes. -/
def Project.passedRow (context : Context) (projection : Project) (row : Row) : Row :=
  projection.install row (projection.items.map (passedValue context row))

theorem foldl_update_congr (entries : List (Slot × Value)) : ∀ {a b : Row} {slot : Slot},
    a slot = b slot →
    entries.foldl (fun row entry => Function.update row entry.1 entry.2) a slot =
      entries.foldl (fun row entry => Function.update row entry.1 entry.2) b slot := by
  induction entries with
  | nil => exact fun h => h
  | cons entry entries ih =>
    intro a b slot h
    refine ih ?_
    show Function.update a entry.1 entry.2 slot = Function.update b entry.1 entry.2 slot
    by_cases hslot : slot = entry.1
    · subst hslot
      rw [Function.update_self, Function.update_self]
    · rw [Function.update_of_ne hslot, Function.update_of_ne hslot, h]

theorem foldl_update_of_not_mem (entries : List (Slot × Value)) : ∀ {row : Row} {slot : Slot},
    slot ∉ entries.map Prod.fst →
    entries.foldl (fun row entry => Function.update row entry.1 entry.2) row slot = row slot := by
  induction entries with
  | nil => exact fun _ => rfl
  | cons entry entries ih =>
    intro row slot hslot
    rw [map_cons, mem_cons, not_or] at hslot
    rw [foldl_cons, ih hslot.2, Function.update_of_ne hslot.1]

theorem foldl_update_of_mem {entries : List (Slot × Value)} (hnodup : (entries.map Prod.fst).Nodup)
    {entry : Slot × Value} (hentry : entry ∈ entries) : ∀ row : Row,
    entries.foldl (fun row entry => Function.update row entry.1 entry.2) row entry.1 = entry.2 := by
  induction entries with
  | nil => cases hentry
  | cons first entries ih =>
    intro row
    rw [map_cons, nodup_cons] at hnodup
    rw [foldl_cons]
    rcases mem_cons.mp hentry with rfl | hentry
    · rw [foldl_update_of_not_mem _ hnodup.1, Function.update_self]
    · exact ih hnodup.2 hentry _

/-- The projection without its ORDER BY. -/
def Project.unordered (projection : Project) : Project := { projection with ordering := [] }

/-- What is out of scope does not show in the columns. -/
theorem passedRow_restrict (context : Context) (projection : Project) (row : Row) :
    (projection.unordered.passedRow context row).restrict projection.outputs =
      (projection.passedRow context row).restrict projection.outputs := by
  funext slot
  by_cases hslot : slot ∈ projection.outputs
  · rw [Row.restrict_of_mem _ hslot, Row.restrict_of_mem _ hslot]
    refine foldl_update_congr _ ?_
    have hcontains : projection.outputs.contains slot = true := contains_iff_mem.mpr hslot
    have hcontains' : projection.unordered.outputs.contains slot = true := hcontains
    simp only [hcontains, hcontains', Bool.not_true, Bool.and_false]
  · rw [Row.restrict_of_not_mem _ hslot, Row.restrict_of_not_mem _ hslot]

/-- **The sort variable** of the projected row is the input it stands for. -/
theorem passedRow_sortInput (hnodup : projection.outputs.Nodup) (row : Row) {output : Slot}
    (hinput : projection.sortInput output = some slot)
    (hkeeps : projection.keepsInput output = true) :
    projection.passedRow context row output = row slot := by
  have hslots : (projection.items.map fun item =>
      (item.slot, passedValue context row item)).map Prod.fst = projection.outputs := by
    rw [map_map]
    rfl
  unfold Project.passedRow Project.install
  rw [show projection.outputs.zip (projection.items.map (passedValue context row)) = _ from zip_map']
  unfold Project.sortInput at hinput
  split at hinput
  next item hfind =>
    split at hinput
    next input hexpression =>
      cases hinput
      have houtput : item.slot = output := by
        simpa using find?_some (p := fun item : Projection => item.slot == output) hfind
      have hmem : (item.slot, passedValue context row item) ∈ projection.items.map fun item =>
          (item.slot, passedValue context row item) :=
        mem_map_of_mem (mem_of_find?_eq_some hfind)
      have hvalue := foldl_update_of_mem (hslots ▸ hnodup) hmem
      rw [← houtput, hvalue, passedValue, hexpression]
      rfl
    next => cases hinput
  next hfind =>
    cases hinput
    have hnot : slot ∉ projection.outputs := by
      intro hmem
      obtain ⟨item, hitem, hslot⟩ := mem_map.mp hmem
      have hnone := find?_eq_none.mp hfind item hitem
      rw [hslot, beq_self_eq_true] at hnone
      exact hnone rfl
    rw [foldl_update_of_not_mem _ (hslots ▸ hnot), hkeeps,
      Bool.eq_false_iff.mpr (mt contains_iff_mem.mp hnot), Bool.not_false, Bool.and_self,
      if_pos rfl]

/-- The ORDER BY key of a row read through the index is the value it was read
for. -/
theorem evalKeys_passedRow (hnodup : projection.outputs.Nodup) {output : Slot}
    (hordering : projection.ordering = [⟨.property (.slot output) property, direction == .desc⟩])
    (hinput : projection.sortInput output = some slot)
    (entry : RangeEntry context.graph slot property direction) :
    keyRow context projection.ordering (projection.passedRow context entry.row) =
      .ok ⟨⟨[entry.value], by rw [hordering]; rfl⟩, projection.passedRow context entry.row⟩ := by
  have hkeeps : projection.keepsInput output = true := by
    unfold Project.keepsInput
    rw [hordering]
    simp [Expression.slots]
  have hvalue : eval context none (projection.passedRow context entry.row)
      (.property (.slot output) property) = .ok entry.value := by
    show propertyOf context.graph property (projection.passedRow context entry.row output) = _
    rw [passedRow_sortInput hnodup entry.row hinput hkeeps, entry.binds]
    exact entry.verified
  generalize projection.passedRow context entry.row = row at hvalue
  generalize_proofs hlength
  revert hlength
  rw [hordering]
  intro hlength
  show (evalKeys context row [_] >>= _) = _
  rw [evalKeys, hvalue]
  rfl

theorem aggregated_eq_false (hpasses : ∀ item ∈ projection.items, item.passesAlong = true) :
    projection.aggregated = false := by
  unfold Project.aggregated
  rw [List.any_eq_false]
  intro item hitem
  have hitem := hpasses item hitem
  unfold Projection.passesAlong at hitem
  split at hitem
  next input hexpression => rw [hexpression]; exact Bool.false_ne_true
  next value hexpression => rw [hexpression]; exact Bool.false_ne_true
  next name hexpression => rw [hexpression]; exact Bool.false_ne_true
  next => cases hitem

/-- The columns of the whole input. -/
theorem selected_passesAlong (hbound : projection.ParametersBound context)
    (hpasses : ∀ item ∈ projection.items, item.passesAlong = true)
    (hunfiltered : projection.predicate = none) (rows : List Row) :
    projection.selected context rows = .ok (rows.map (projection.passedRow context)) := by
  have hrow (row : Row) :
      projection.evaluate context none row = .ok (projection.passedRow context row) := by
    unfold Project.evaluate
    rw [mapM_eq_map fun item hitem => eval_passesAlong hbound hitem (hpasses item hitem) row]
    rfl
  unfold Project.selected Project.projected Project.filtered
  rw [aggregated_eq_false hpasses, if_neg Bool.false_ne_true, mapM_eq_map fun row _ => hrow row,
    hunfiltered]
  rfl

end Columns

/-! ## §4. Both consumers. -/

variable {batches : List (List Row)}

section Consumers

variable {context : Context} {selection : RowSelection} {limits : Limits} {projection : Project}

/-- **A window over batches** is the window over all their rows, wherever it
stops. -/
theorem projectBatches_eq (hplain : projection.aggregated = false)
    (hordering : projection.ordering = []) (termination : Termination) (input : Relation) (hsplit : batches.flatten = input.rows) {rows : List Row}
    (hrows : projection.selected context input.rows = .ok rows) :
    projectBatches context selection limits projection termination batches = (do
      let window ← Window.evaluate context projection.skip projection.limit
      pure (window.positions (rows.map fun row => row.restrict projection.outputs))) := by
  have hreleased : collectM (projectRelation context selection limits projection.bare) batches =
      .ok (rows.map fun row => row.restrict projection.outputs) :=
    (collectM_bare_ok hplain hordering input hsplit _).mpr ⟨rows, hrows, rfl⟩
  unfold projectBatches
  congr 1
  funext window
  rw [projectBatchesFrom_eq _ hreleased, BatchOutput.foldl_push_output]
  rfl

variable {slot : Slot} {property : String} {direction : RangeIndexDirection}

/-- Rows read through the index are keyed in the order of ORDER BY. -/
theorem orderedEntries_of_read (hbound : projection.ParametersBound context)
    (hnodup : projection.outputs.Nodup) (h : projection.OrderedBy slot property direction)
    {rows : List Row} (hread : RangeRead context.graph slot property direction rows) :
    ∃ keyed, projection.orderedEntries context rows = .ok keyed ∧
      stableSort KeyedRow.cmp keyed = keyed ∧
      keyed.map KeyedRow.row = rows.map (projection.passedRow context) := by
  obtain ⟨entries, rfl, hsorted⟩ := hread
  obtain ⟨output, hordering, hinput⟩ := h.key
  refine ⟨entries.map fun entry =>
    ⟨⟨[entry.value], by rw [hordering]; rfl⟩, projection.passedRow context entry.row⟩, ?_, ?_, ?_⟩
  · refine (bind_assoc _ _ _).symm.trans ?_
    show (projection.selected context _ >>= _) = _
    rw [selected_passesAlong hbound h.passes h.unfiltered]
    show (projection.deduplicated _).mapM _ = _
    rw [Project.deduplicated, h.all, if_neg Bool.false_ne_true, map_map, mapM_map]
    exact mapM_eq_map fun entry _ => evalKeys_passedRow hnodup hordering hinput entry
  · refine stableSort_of_sorted _ (pairwise_map.mpr ?_)
    refine hsorted.imp ?_
    intro a b hab
    show (compareKeys projection.ordering [a.value] [b.value]).isLE = true
    rw [hordering]
    simp only [compareKeys, Ordering.then_eq]
    exact RangeEntry.sorted hab _
  · rw [map_map, map_map]
    rfl

/-- **The ordered window** returns what the top-k consumer does. -/
theorem projectBatches_of_read (hbound : projection.ParametersBound context)
    (hnodup : projection.outputs.Nodup) (h : projection.OrderedBy slot property direction)
    (input : Relation) (hsplit : batches.flatten = input.rows)
    (hread : RangeRead context.graph slot property direction input.rows) :
    projectBatches context selection limits projection.unordered .afterFirstBatch batches =
      topKBatches context projection batches := by
  have hplain : projection.unordered.aggregated = false := aggregated_eq_false h.passes
  have hunordered : projection.unordered.ParametersBound context := hbound
  have hselected := selected_passesAlong hunordered h.passes h.unfiltered input.rows
  have hreleased : ((input.rows.map (projection.unordered.passedRow context)).map
        fun row => row.restrict projection.outputs) =
      (input.rows.map (projection.passedRow context)).map
        fun row => row.restrict projection.outputs := by
    rw [map_map, map_map]
    exact map_congr_left fun row _ => passedRow_restrict context projection row
  obtain ⟨keyed, hkeyed, hsorted, hrows⟩ := orderedEntries_of_read hbound hnodup h hread
  refine (projectBatches_eq hplain rfl .afterFirstBatch input hsplit hselected).trans ?_
  show (Window.evaluate context projection.skip projection.limit >>= fun window =>
    pure (window.positions ((input.rows.map (projection.unordered.passedRow context)).map
      fun row => row.restrict projection.outputs))) = _
  rw [hreleased]
  cases hwindow : Window.evaluate context projection.skip projection.limit with
  | error e =>
    unfold topKBatches
    rw [hwindow]
    rfl
  | ok window =>
    refine ((topKBatches_ok (aggregated_eq_false h.passes) h.all input hsplit _).mpr
      ⟨window, keyed, hwindow, hkeyed, ?_⟩).symm
    rw [hsorted, ← hrows]
    unfold Window.positions
    rw [map_map, ← map_drop, ← map_take]
    rfl

theorem outputs_nodup {query : Query} {operator : Operator}
    (hoperators : query.operators = operator :: .project projection :: rest) :
    projection.outputs.Nodup := by
  have hproject : query.operators[1]? = some (.project projection) := by
    rw [hoperators]
    rfl
  have hvalidate := query.validate hproject
  unfold Operator.validate Project.validate at hvalidate
  obtain ⟨_, _, hvalidate⟩ := except_bind_ok hvalidate
  obtain ⟨_, hrequire, _⟩ := except_bind_ok hvalidate
  exact of_decide_eq_true (require_ok hrequire)

end Consumers

/-- **An ordered projection with LIMIT.**  The top-k consumer returns the window of
the stable sort of all projected rows that WHERE admits, however the input is
split; and where the planner finds the input ordered, the window over the rows as
they come returns the same. -/
theorem topKBatches_and_window :
    (∀ (context : Context) (projection : Project), projection.aggregated = false →
      projection.distinct = false → ∀ (input : Relation) (batches : List (List Row)),
      batches.flatten = input.rows → ∀ rows,
      topKBatches context projection batches = .ok rows ↔
        ∃ window entries, Window.evaluate context projection.skip projection.limit = .ok window ∧
          projection.orderedEntries context input.rows = .ok entries ∧
          rows = (window.positions (stableSort KeyedRow.cmp entries)).map
            fun entry => entry.row.restrict projection.outputs) ∧
    ∀ (context : Context) (selection : RowSelection) (limits : Limits) (query : Query)
      (plan : MatchPlan) (sources : List PlannedSource) (pattern : Pattern) (optional : Bool)
      (predicate : Option Expression) (projection : Project) (rest : List Operator),
      orderedInput query plan sources = true →
      query.operators = .matchPattern pattern optional predicate :: .project projection :: rest →
      projection.ParametersBound context →
      ∀ (input : Relation) (batches : List (List Row)), batches.flatten = input.rows →
      (∀ slot property direction, soleRange plan sources = some (slot, property, direction) →
        RangeRead context.graph slot property direction input.rows) →
      projectBatches context selection limits projection.unordered .afterFirstBatch batches =
        topKBatches context projection batches := by
  constructor
  · intro context projection hplain hall input batches hsplit rows
    exact topKBatches_ok hplain hall input hsplit rows
  · intro context selection limits query plan sources pattern optional predicate projection rest
      hordered hoperators hbound input batches hsplit hread
    obtain ⟨slot, property, direction, hrange, h⟩ := orderedInput_orderedBy hordered hoperators
    exact projectBatches_of_read hbound (outputs_nodup hoperators) h input hsplit
      (hread slot property direction hrange)

/-! Two nodes with a numeric rank, read through an index on it. -/

/-- Two users with ranks. -/
def rankedContext : Context :=
  { storelessContext with
    graph := {
      nodes := [⟨1, some "User", [("rank", .ok (.integer 1))]⟩,
        ⟨2, some "User", [("rank", .ok (.integer 2))]⟩]
      edges := []
      nodes_nodup := by decide
      edges_nodup := List.nodup_nil
      endpoints := fun _ h => nomatch h } }

/-- The first user by rank. -/
def rankedProjection : Project where
  items := [⟨1, .slot 0⟩]
  distinct := false
  ordering := [⟨.property (.slot 1) "rank", false⟩]
  predicate := none
  skip := none
  limit := some (.literal (.integer 1))

/-- The users. -/
def rankedPattern : Pattern := ⟨[⟨0, some "User", []⟩], [], []⟩

/-- A rank above 0. -/
def rankedPredicate : Expression :=
  .binary .greater (.property (.slot 0) "rank") (.literal (.integer 0))

/-- `MATCH (n:User) WHERE n.rank > 0 RETURN n ORDER BY n.rank LIMIT 1`. -/
def rankedQuery : Query where
  bindings := [⟨.node, .node⟩, ⟨.node, .node⟩]
  operators := [.matchPattern rankedPattern false (some rankedPredicate), .project rankedProjection]
  validated := ⟨[1], by decide⟩
  bound := by
    intro index pattern optional predicate h
    match index with
    | 0 =>
      cases h
      exact ⟨by decide, by decide⟩
    | 1 => cases h
    | _ + 2 => cases h

/-- A scan of the users. -/
def rankedPlan : MatchPlan where
  steps := [.scan 0]

/-- The range index of the rank. -/
def rankedSources : List PlannedSource := [⟨[some (.range "rank" .asc .forward)]⟩]

/-- The row of a node. -/
def nodeRow (id : UInt64) : Row := Function.update emptyRow 0 (.entity (.node id))

/-- The rows of the scan. -/
def rankedRows : Relation where
  rows := [nodeRow 1, nodeRow 2]
  counted := by decide

/-- The entries of the index. -/
def rankedEntries : List (RangeEntry rankedContext.graph 0 "rank" .asc) := [
  { row := nodeRow 1, id := 1, stored := .i64 1, value := .integer 1
    canonical := ⟨.asc, [0x01, 0x04, 0x80, 0x00, 0x80, 0x00, 0x00, 0x00, 0x00, 0x00, 0x00, 0x00]⟩
    indexed := by decide +kernel
    converted := rfl
    binds := rfl
    verified := rfl },
  { row := nodeRow 2, id := 2, stored := .i64 2, value := .integer 2
    canonical := ⟨.asc, [0x01, 0x04, 0x80, 0x01, 0x80, 0x00, 0x00, 0x00, 0x00, 0x00, 0x00, 0x00]⟩
    indexed := by decide +kernel
    converted := rfl
    binds := rfl
    verified := rfl }]

theorem rankedRows_read : RangeRead rankedContext.graph 0 "rank" .asc rankedRows.rows := by
  refine ⟨rankedEntries, rfl, ?_⟩
  unfold rankedEntries
  rw [pairwise_pair]
  exact ⟨by decide, by decide +kernel⟩

theorem topKBatches_and_window_ranked :
    orderedInput rankedQuery rankedPlan rankedSources = true ∧
    (∀ rows, topKBatches rankedContext rankedProjection [[nodeRow 1], [nodeRow 2]] = .ok rows ↔
      ∃ window entries, Window.evaluate rankedContext none (some (.literal (.integer 1))) =
          .ok window ∧
        rankedProjection.orderedEntries rankedContext [nodeRow 1, nodeRow 2] = .ok entries ∧
        rows = (window.positions (stableSort KeyedRow.cmp entries)).map
          fun entry => entry.row.restrict [1]) ∧
    projectBatches rankedContext sortingSelection ⟨1⟩ rankedProjection.unordered .afterFirstBatch
        [[nodeRow 1], [nodeRow 2]] =
      topKBatches rankedContext rankedProjection [[nodeRow 1], [nodeRow 2]] := by
  refine ⟨by decide, ?_, ?_⟩
  · exact topKBatches_and_window.1 rankedContext rankedProjection rfl rfl rankedRows
      [[nodeRow 1], [nodeRow 2]] rfl
  · refine topKBatches_and_window.2 rankedContext sortingSelection ⟨1⟩ rankedQuery rankedPlan
      rankedSources rankedPattern false (some rankedPredicate) rankedProjection [] (by decide) rfl
      ?_ rankedRows [[nodeRow 1], [nodeRow 2]] rfl ?_
    · intro item hitem name hname
      cases List.mem_singleton.mp hitem
      cases hname
    · intro slot property direction hrange
      cases hrange
      exact rankedRows_read

end HelixDb.Relational
