/-
  HelixDb.Relational.Projection

  **PROJECTIONS OF WHOLE RELATIONS**: columns, grouping, WHERE, DISTINCT, ORDER
  BY and the window, in this order.

  Aggregates that are columns by themselves fill the groups of a table; where an
  aggregate is only a part of a column, the rows are grouped by sorting.  Neither
  reads ORDER BY or the window.

    • `compareColumns_transCmp`, `KeyedRow.instTransCmp` — projected columns and
      ORDER BY keys are ordered;
    • `Window.apply_eq` — no window ends where its end saturates.
-/
import HelixDb.Relational.Rows
import HelixDb.Relational.HashJoin
import HelixDb.Lib.StableSort

namespace HelixDb.Relational

open HelixDb.Lib

/-! ## §1. Columns. -/

namespace Project

variable (projection : Project)

/-- `input_slots`: the incoming values that ORDER BY or WHERE may still read. -/
def keepsInput (slot : Slot) : Bool :=
  projection.ordering.any (fun order => order.expression.slots.contains slot) ||
    projection.predicate.any fun predicate => predicate.slots.contains slot

/-- `push_projection`. -/
def install (row : Row) (values : List Value) : Row :=
  (projection.outputs.zip values).foldl (fun row entry => Function.update row entry.1 entry.2)
    fun slot => if projection.keepsInput slot && !projection.outputs.contains slot then row slot
      else .null

/-- The columns of one row, or of a group and the row that stands for it. -/
def evaluate (context : Context) (group : Option (List Row)) (row : Row) : Result Row := do
  let values ← projection.items.mapM fun item => eval context group row item.expression
  pure (projection.install row values)

/-- A projection that aggregates. -/
def aggregated : Bool := projection.items.any fun item => item.expression.hasAggregate

/-- The grouping columns. -/
def keys : List Projection := projection.items.filter fun item => !item.expression.hasAggregate

end Project

/-! ## §2. Grouping. -/

/-- An aggregate itself. -/
def Expression.isAggregate : Expression → Bool
  | .aggregate _ _ _ => true
  | _ => false

/-- One aggregate column: its slot, function, argument and DISTINCT. -/
structure Specification where
  slot : Slot
  function : Aggregate
  argument : Option Expression
  distinct : Bool

/-- The aggregate of an item. -/
def Projection.specification (item : Projection) : Option Specification :=
  match item.expression with
  | .aggregate function argument distinct => some ⟨item.slot, function, argument, distinct⟩
  | _ => none

/-- `GroupingKey::row`. -/
def groupingRow (values : List Value) : Result (List Value) :=
  if (Value.checkShapeAll 0 (Value.maxKeyItems - 1) values).isSome then .ok values
  else .error (.runtime "resource_limit" "value_depth" "grouping columns exceed structural limits")

/-- A group: its first grouping values, its representative, and what each
aggregate has read. -/
structure AggregateGroup where
  key : List Value
  base : Row
  arguments : List (List Value)

/-- The argument's value; `count(*)` reads 1. -/
def Specification.read (context : Context) (row : Row) (specification : Specification) :
    Result Value :=
  match specification.argument with
  | some argument => eval context none row argument
  | none => .ok (.integer 1)

namespace Project

variable (context : Context) (projection : Project)

/-- Every aggregate is a column by itself. -/
def isDirect : Bool :=
  projection.items.all fun item => !item.expression.hasAggregate || item.expression.isAggregate

/-- The aggregates of the items. -/
def specifications : List Specification := projection.items.filterMap Projection.specification

/-- One more value for every aggregate. -/
def readMore (read : List (List Value)) (values : List Value) : List (List Value) :=
  List.zipWith (fun read value => read ++ [value]) read values

/-- A key with an equal joins its group. -/
def pushGroup (key : List Value) (base : Row) (values : List Value) :
    List AggregateGroup → List AggregateGroup
  | [] => [⟨key, base, values.map fun value => [value]⟩]
  | group :: groups =>
    if Value.totalCmpAll key group.key = .eq then
      { group with arguments := readMore group.arguments values } :: groups
    else group :: pushGroup key base values groups

/-- One row goes to its group. -/
def aggregateRow (groups : List AggregateGroup) (row : Row) : Result (List AggregateGroup) := do
  let key ← projection.keys.mapM fun item => eval context none row item.expression
  let key ← groupingRow key
  let values ← projection.specifications.mapM (Specification.read context row)
  pure (pushGroup key (projection.install row []) values groups)

/-- The grouping values and the results, in their slots. -/
def finishGroup (group : AggregateGroup) : Result Row := do
  let results ← (projection.specifications.zip group.arguments).mapM fun entry =>
    context.builtins.aggregate entry.1.function entry.1.distinct entry.2
  pure (((projection.keys.map Projection.slot).zip group.key ++
    (projection.specifications.map Specification.slot).zip results).foldl
      (fun row entry => Function.update row entry.1 entry.2) group.base)

/-- `aggregate_rows`: groups in the order of their first rows; without grouping
columns there is one group even of no rows. -/
def aggregateRows (rows : List Row) : Result (List Row) := do
  let groups ← rows.foldlM (projection.aggregateRow context) []
  let groups := if groups.isEmpty && projection.keys.isEmpty then
      [⟨[], emptyRow, projection.specifications.map fun _ => []⟩]
    else groups
  groups.mapM (projection.finishGroup context)

/-- Grouping by sorting, where an aggregate is only a part of a column. -/
def groupRows (rows : List Row) : Result (List Row) := do
  let keyed ← rows.mapM fun row => do
    let key ← projection.keys.mapM fun item => eval context none row item.expression
    pure (key, row)
  let sorted := stableSort (fun a b => Value.totalCmpAll a.1 b.1) keyed
  let groups := sorted.splitBy (fun a b => Value.totalCmpAll a.1 b.1 == .eq) ++
    if sorted.isEmpty && projection.keys.isEmpty then [[]] else []
  groups.mapM fun entries =>
    let group := entries.map Prod.snd
    projection.evaluate context (some group) (group.headD emptyRow)

/-- The projected rows before WHERE. -/
def projected (rows : List Row) : Result (List Row) :=
  if projection.aggregated then
    if projection.isDirect then projection.aggregateRows context rows
    else projection.groupRows context rows
  else rows.mapM (projection.evaluate context none)

/-- `filter_relation` by the projection's WHERE. -/
def filtered (rows : List Row) : Result (List Row) :=
  match projection.predicate with
  | none => .ok rows
  | some predicate => collectM (filterRow context predicate) rows

end Project

/-! ## §3. DISTINCT. -/

/-- Rows compare by their projected columns, in the order of the items. -/
def compareColumns : List Slot → Row → Row → Ordering
  | [], _, _ => .eq
  | slot :: slots, a, b => ((a slot).totalCmp (b slot)).then (compareColumns slots a b)

instance compareColumns_transCmp (slots : List Slot) : Std.TransCmp (compareColumns slots) := by
  induction slots with
  | nil => exact { eq_swap := rfl, isLE_trans := fun _ _ => rfl }
  | cons slot slots ih =>
    have hcompare : compareColumns (slot :: slots) =
        compareLex (fun a b => (a slot).totalCmp (b slot)) (compareColumns slots) := rfl
    have hslot : Std.TransCmp fun a b : Row => (a slot).totalCmp (b slot) :=
      { eq_swap := Std.OrientedCmp.eq_swap, isLE_trans := Std.TransCmp.isLE_trans }
    rw [hcompare]
    infer_instance

/-- Sort by the columns and keep the first of every run. -/
def Project.deduplicated (projection : Project) (rows : List Row) : List Row :=
  if projection.distinct then
    dedupRuns (compareColumns projection.outputs) (stableSort (compareColumns projection.outputs) rows)
  else rows

/-! ## §4. ORDER BY. -/

/-- The order of one key. -/
def OrderKey.compare (order : OrderKey) (a b : Value) : Ordering :=
  if order.descending then (a.totalCmp b).swap else a.totalCmp b

/-- The first key that differs decides. -/
def compareKeys : List OrderKey → List Value → List Value → Ordering
  | order :: ordering, a :: as, b :: bs => (order.compare a b).then (compareKeys ordering as bs)
  | _, _, _ => .eq

/-- A row with the values of its ORDER BY keys. -/
structure KeyedRow (ordering : List OrderKey) where
  keys : List.Vector Value ordering.length
  row : Row

/-- Rows by their keys. -/
def KeyedRow.cmp {ordering : List OrderKey} (a b : KeyedRow ordering) : Ordering :=
  compareKeys ordering a.keys.toList b.keys.toList

instance OrderKey.instTransCmp (order : OrderKey) : Std.TransCmp order.compare := by
  cases hdescending : order.descending with
  | false =>
    have hcompare : order.compare = Value.totalCmp := by
      funext a b
      rw [OrderKey.compare, hdescending, if_neg Bool.false_ne_true]
    rw [hcompare]
    infer_instance
  | true =>
    have hcompare : order.compare = fun a b => b.totalCmp a := by
      funext a b
      rw [OrderKey.compare, hdescending, if_pos rfl]
      exact Std.OrientedCmp.eq_swap.symm
    rw [hcompare]
    exact { eq_swap := Std.OrientedCmp.eq_swap,
            isLE_trans := fun hab hbc => Std.TransCmp.isLE_trans hbc hab }

theorem compareKeys_swap : ∀ {ordering : List OrderKey} {as bs : List Value},
    compareKeys ordering as bs = (compareKeys ordering bs as).swap
  | [], _, _ => by simp [compareKeys]
  | _ :: _, [], bs => by cases bs <;> simp [compareKeys]
  | _ :: _, _ :: _, [] => by simp [compareKeys]
  | order :: ordering, a :: as, b :: bs => by
    have hhead : order.compare a b = (order.compare b a).swap := Std.OrientedCmp.eq_swap
    rw [compareKeys, compareKeys, hhead, compareKeys_swap, Ordering.swap_then]

/-- Transitivity needs a value for every key. -/
theorem compareKeys_trans : ∀ {ordering : List OrderKey} {as bs cs : List Value},
    as.length = ordering.length → bs.length = ordering.length → cs.length = ordering.length →
    (compareKeys ordering as bs).isLE = true → (compareKeys ordering bs cs).isLE = true →
    (compareKeys ordering as cs).isLE = true
  | [], _, _, _, _, _, _, _, _ => by simp [compareKeys]
  | order :: ordering, a :: as, b :: bs, c :: cs, ha, hb, hc, hab, hbc => by
    rw [compareKeys, Ordering.isLE_then_iff_or] at hab hbc ⊢
    have hrest := fun hab hbc => compareKeys_trans (Nat.succ.inj ha) (Nat.succ.inj hb)
      (Nat.succ.inj hc) hab hbc
    rcases hab with hab | ⟨hab, habs⟩
    · rcases hbc with hbc | ⟨hbc, _⟩
      · exact .inl (Std.TransCmp.lt_trans hab hbc)
      · exact .inl (Std.TransCmp.lt_of_lt_of_eq hab hbc)
    · rcases hbc with hbc | ⟨hbc, hbcs⟩
      · exact .inl (Std.TransCmp.lt_of_eq_of_lt hab hbc)
      · exact .inr ⟨Std.TransCmp.eq_trans hab hbc, hrest habs hbcs⟩

/-- **ORDER BY keys are ordered**: every row has a value for every key. -/
instance KeyedRow.instTransCmp (ordering : List OrderKey) :
    Std.TransCmp (KeyedRow.cmp : KeyedRow ordering → KeyedRow ordering → Ordering) where
  eq_swap := compareKeys_swap
  isLE_trans := compareKeys_trans (List.Vector.toList_length _) (List.Vector.toList_length _)
    (List.Vector.toList_length _)

/-- `eval_sequence` of the ORDER BY expressions. -/
def evalKeys (context : Context) (row : Row) :
    (ordering : List OrderKey) → Result (List.Vector Value ordering.length)
  | [] => .ok .nil
  | order :: ordering => do
    let value ← eval context none row order.expression
    let values ← evalKeys context row ordering
    pure (.cons value values)

/-- A row with its keys. -/
def keyRow (context : Context) (ordering : List OrderKey) (row : Row) :
    Result (KeyedRow ordering) := do
  let keys ← evalKeys context row ordering
  pure { keys, row }

/-- The rows that ORDER BY sorts. -/
def Project.orderedEntries (context : Context) (projection : Project) (rows : List Row) :
    Result (List (KeyedRow projection.ordering)) := do
  let rows ← projection.projected context rows
  let rows ← projection.filtered context rows
  (projection.deduplicated rows).mapM (keyRow context projection.ordering)

/-! ## §5. Relations in memory. -/

/-- A `Vec` of rows: its length is a `usize`. -/
structure Relation where
  rows : List Row
  counted : rows.length ≤ U64_MAX

/-- The rows from position `skip` on, `limit` of them. -/
def Window.positions (window : Window) {α : Type} (rows : List α) : List α :=
  (rows.drop window.skip).take window.limit

/-- Up to its saturated end, a window is its positions. -/
theorem Window.apply_eq {α : Type} (window : Window) {rows : List α}
    (h : rows.length ≤ U64_MAX) : window.apply rows = window.positions rows := by
  unfold apply positions saturatingAdd
  have htake : rows.take (min (window.skip + window.limit) U64_MAX) =
      rows.take (window.skip + window.limit) := by
    rcases le_total (window.skip + window.limit) U64_MAX with hle | hle
    · rw [min_eq_left hle]
    · rw [min_eq_right hle, List.take_of_length_le h, List.take_of_length_le (h.trans hle)]
  rw [htake, List.drop_take, Nat.add_sub_cancel_left]

/-- A context without stored data or parameters, in which no arithmetic, function
or aggregate is defined. -/
def storelessContext : Context where
  graph := {
    nodes := []
    edges := []
    nodes_nodup := List.nodup_nil
    edges_nodup := List.nodup_nil
    endpoints := fun _ h => nomatch h }
  parameters := []
  builtins := {
    arithmetic := fun _ _ _ => .error (typeError "undefined")
    function := fun _ _ _ => .error (typeError "undefined")
    aggregate := fun _ _ _ => .error (typeError "undefined") }

end HelixDb.Relational
