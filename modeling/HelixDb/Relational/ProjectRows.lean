/-
  HelixDb.Relational.ProjectRows

  **PROJECTING A RELATION** at once, or batch by batch.

  An ordered projection with LIMIT that neither groups nor removes duplicates
  goes through the top-k consumer.  Every other ordered projection keys its rows,
  cuts them down to the end of the window by an unstable selection, and sorts
  what is left stably.

  How `select_nth_unstable_by` arranges rows of equal rank is not specified:
  `SelectNth` is any function with its contract.

    • `projectRelation_unordered` — without ORDER BY: the window of the columns
      that WHERE admits;
    • `projectBatchesFrom_eq`, `BatchOutput.foldl_push_output` — batch by batch: the
      window of what the batches select, even where it stops early.
-/
import HelixDb.Relational.TopK

namespace HelixDb.Relational

open HelixDb.Lib

/-! ## §1. The cut. -/

/-- What `select_nth_unstable_by` promises: the elements are rearranged so that
none before the index is greater than one from the index on. -/
structure SelectNth {α : Type} (c : α → α → Ordering) where
  select : Nat → List α → List α
  perm : ∀ index l, (select index l).Perm l
  split : ∀ {index l}, index < l.length → ∀ a ∈ (select index l).take index,
    ∀ b ∈ (select index l).drop index, (c a b).isLE = true

/-- The selection, for keyed rows of every ordering. -/
abbrev RowSelection :=
  ∀ ordering, SelectNth (KeyedRow.cmp : KeyedRow ordering → KeyedRow ordering → Ordering)

/-- Sorting is a selection. -/
def sortingSelection : RowSelection := fun _ => {
  select := fun _ => stableSort KeyedRow.cmp
  perm := fun _ => stableSort_perm KeyedRow.cmp
  split := by
    intro index l _ a ha b hb
    have hsorted := sorted_stableSort KeyedRow.cmp l
    rw [← List.take_append_drop index (stableSort KeyedRow.cmp l)] at hsorted
    exact (List.pairwise_append.mp hsorted).2.2 a ha b hb }

/-- Cut the keyed rows down to the end of the window, then sort. -/
def sortWindow {ordering : List OrderKey} (selection : RowSelection) (window : Window)
    (entries : List (KeyedRow ordering)) : List (KeyedRow ordering) :=
  let keep := saturatingAdd window.skip window.limit
  stableSort KeyedRow.cmp
    (if keep < entries.length then ((selection ordering).select keep entries).take keep else entries)

/-- The window of the rows in their order. -/
def orderRows (context : Context) (projection : Project) (selection : RowSelection)
    (window : Window) (rows : List Row) : Result (List Row) :=
  if projection.ordering.isEmpty then .ok rows
  else do
    let entries ← rows.mapM (keyRow context projection.ordering)
    pure ((sortWindow selection window entries).map KeyedRow.row)

/-! ## §2. Relations. -/

/-- `chunks`: the fuel is the number of rows. -/
def chunks {α : Type} (width : Nat) : Nat → List α → List (List α)
  | 0, _ => []
  | _ + 1, [] => []
  | fuel + 1, row :: rows =>
    (row :: rows).take width :: chunks width fuel ((row :: rows).drop width)

/-- The limits a projection reads: rows are handed on in batches of this many. -/
structure Limits where
  batchRows : ℕ+

/-- The rows in batches of the limit. -/
def rowBatches (limits : Limits) (rows : List Row) : List (List Row) :=
  chunks limits.batchRows rows.length rows

theorem flatten_chunks {α : Type} {width : Nat} (hwidth : 0 < width) (fuel : Nat) :
    ∀ {rows : List α}, rows.length ≤ fuel → (chunks width fuel rows).flatten = rows := by
  induction fuel with
  | zero =>
    intro rows hrows
    rw [List.eq_nil_of_length_eq_zero (Nat.le_zero.mp hrows)]
    rfl
  | succ fuel ih =>
    intro rows hrows
    cases rows with
    | nil => rfl
    | cons row rows =>
      have hrest : ((row :: rows).drop width).length ≤ fuel := by
        rw [List.length_drop]
        omega
      rw [chunks, List.flatten_cons, ih hrest, List.take_append_drop]

theorem flatten_rowBatches (limits : Limits) (rows : List Row) :
    (rowBatches limits rows).flatten = rows :=
  flatten_chunks limits.batchRows.pos rows.length le_rfl

section Relations

variable (context : Context) (selection : RowSelection) (limits : Limits) (projection : Project)

/-- An ordered projection that a bounded heap can serve. -/
def Project.usesTopK (window : Window) : Bool :=
  !projection.aggregated && !projection.distinct && !projection.ordering.isEmpty
    && window.limit != U64_MAX

/-- `project_rows` after its window was evaluated, without a heap. -/
def projectMaterialized (window : Window) (rows : List Row) : Result (List Row) := do
  let rows ← projection.projected context rows
  let rows ← projection.filtered context rows
  let rows ← orderRows context projection selection window (projection.deduplicated rows)
  pure ((window.apply rows).map fun row => row.restrict projection.outputs)

/-- `project_rows`. -/
def projectRelation (rows : List Row) : Result (List Row) := do
  let window ← Window.evaluate context projection.skip projection.limit
  if projection.usesTopK window then topKBatches context projection (rowBatches limits rows)
  else projectMaterialized context selection projection window rows

end Relations

/-! ## §3. Batches. -/

/-- When a full output may end the input. -/
inductive Termination where
  | drain | beforeInput | afterFirstBatch
deriving DecidableEq

/-- Whether it may end it now. -/
def Termination.mayStop (termination : Termination) (inputStarted : Bool) : Bool :=
  match termination with
  | .drain => false
  | .beforeInput => true
  | .afterFirstBatch => inputStarted

/-- The columns and WHERE of a projection alone. -/
def Project.bare (projection : Project) : Project :=
  { projection with distinct := false, ordering := [], skip := none, limit := none }

/-- Window counters over all batches. -/
structure BatchOutput where
  skip : Nat
  output : List Row

/-- One row: skipped, kept or past the limit. -/
def BatchOutput.push (limit : Nat) (state : BatchOutput) (row : Row) : BatchOutput :=
  if 0 < state.skip then { state with skip := state.skip - 1 }
  else if state.output.length < limit then { state with output := state.output ++ [row] }
  else state

section Batches

variable (context : Context) (selection : RowSelection) (limits : Limits) (projection : Project)
  (termination : Termination)

/-- The loop over the batches. -/
def projectBatchesFrom (limit : Nat) :
    Bool → List (List Row) → BatchOutput → Result (List Row)
  | _, [], state => .ok state.output
  | inputStarted, batch :: batches, state =>
    if termination.mayStop inputStarted && decide (limit ≤ state.output.length) then
      .ok state.output
    else do
      let projected ← projectRelation context selection limits projection.bare batch
      projectBatchesFrom limit true batches (projected.foldl (BatchOutput.push limit) state)

/-- `project_batches`. -/
def projectBatches (batches : List (List Row)) : Result (List Row) := do
  let window ← Window.evaluate context projection.skip projection.limit
  projectBatchesFrom context selection limits projection termination window.limit false batches
    { skip := window.skip, output := [] }

end Batches

namespace BatchOutput

/-- The window over everything pushed. -/
theorem foldl_push_output (limit : Nat) (rows : List Row) : ∀ state : BatchOutput,
    (rows.foldl (push limit) state).output =
      state.output ++ (rows.drop state.skip).take (limit - state.output.length) := by
  induction rows with
  | nil => simp
  | cons row rows ih =>
    rintro ⟨skip, output⟩
    rw [List.foldl_cons, ih]
    unfold push
    cases skip with
    | succ skip => rfl
    | zero =>
      rw [if_neg (lt_irrefl 0)]
      show _ = output ++ (row :: rows).take (limit - output.length)
      by_cases hroom : output.length < limit
      · have hmore : limit - output.length = limit - (output.length + 1) + 1 := by omega
        rw [if_pos hroom, hmore]
        simp
      · rw [if_neg hroom, Nat.sub_eq_zero_of_le (not_lt.mp hroom)]
        simp

end BatchOutput

/-- **Stopping early** loses nothing: every batch that is not read would have
been selected from without error, and the window is full. -/
theorem projectBatchesFrom_eq {context : Context} {selection : RowSelection} {limits : Limits}
    {projection : Project} {termination : Termination} (limit : Nat) {batches : List (List Row)} :
    ∀ {released : List Row} {inputStarted : Bool} {state : BatchOutput},
    collectM (projectRelation context selection limits projection.bare) batches = .ok released →
    projectBatchesFrom context selection limits projection termination limit inputStarted batches
      state = .ok (released.foldl (BatchOutput.push limit) state).output := by
  induction batches with
  | nil =>
    intro released _ state h
    cases h
    rfl
  | cons batch batches ih =>
    intro released inputStarted state h
    rw [collectM_cons] at h
    obtain ⟨first, hfirst, h⟩ := except_bind_ok h
    obtain ⟨rest, hrest, h⟩ := except_bind_ok h
    cases h
    rw [projectBatchesFrom]
    split
    next hstop =>
      rw [Bool.and_eq_true, decide_eq_true_eq] at hstop
      rw [BatchOutput.foldl_push_output, Nat.sub_eq_zero_of_le hstop.2, List.take_zero,
        List.append_nil]
    next =>
      rw [hfirst, List.foldl_append]
      exact ih hrest

/-! ## §4. Without ORDER BY. -/

section Unordered

variable {context : Context} {selection : RowSelection} {limits : Limits} {projection : Project}

/-- Everything before the window. -/
def Project.selected (context : Context) (projection : Project) (rows : List Row) :
    Result (List Row) := do
  let rows ← projection.projected context rows
  projection.filtered context rows

theorem projectRelation_unordered (hordering : projection.ordering = []) (rows : List Row) :
    projectRelation context selection limits projection rows = (do
      let window ← Window.evaluate context projection.skip projection.limit
      let rows ← projection.selected context rows
      pure ((window.apply (projection.deduplicated rows)).map
        fun row => row.restrict projection.outputs)) := by
  unfold projectRelation
  congr 1
  funext window
  rw [Project.usesTopK, hordering, List.isEmpty_nil, Bool.not_true, Bool.and_false, Bool.false_and,
    if_neg Bool.false_ne_true, projectMaterialized, Project.selected, bind_assoc]
  congr 1
  funext rows
  congr 1
  funext rows
  rw [orderRows, hordering]
  rfl

end Unordered

end HelixDb.Relational
