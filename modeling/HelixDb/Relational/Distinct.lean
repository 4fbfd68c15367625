/-
  HelixDb.Relational.Distinct

  **INCREMENTAL DISTINCT**: a bounded ordered set of representatives, batch by
  batch.

  A row whose class is in the set is dropped, and so is one that a full set has
  no room for; a class that was evicted cannot come back, because the set's
  greatest class only decreases.

    • `distinctBatches_ok` — the result is that of projecting the whole relation:
      the first row of every class, in the order of the columns.
-/
import HelixDb.Relational.ProjectRows

namespace HelixDb.Relational

open HelixDb.Lib

/-! ## §1. The consumer. -/

section Consumer

variable (context : Context) (selection : RowSelection) (limits : Limits) (projection : Project)

/-- One batch; the set is kept in ascending order. -/
def distinctBatch (keep : Nat) (entries : List Row) (batch : List Row) : Result (List Row) := do
  let projected ← projectRelation context selection limits projection.bare batch
  pure (projected.foldl (pushNew (compareColumns projection.outputs) keep) entries)

/-- `distinct_batches`. -/
def distinctBatches (batches : List (List Row)) : Result (List Row) := do
  let window ← Window.evaluate context projection.skip projection.limit
  let entries ← batches.foldlM
    (distinctBatch context selection limits projection window.retainedRows) []
  pure ((entries.drop window.skip).take window.limit)

end Consumer

/-! ## §2. Rows one by one. -/

variable {context : Context} {selection : RowSelection} {limits : Limits} {projection : Project}

/-- What one row of the input contributes to a projection without grouping. -/
def selectedRow (context : Context) (projection : Project) (row : Row) : Result (List Row) := do
  let row ← projection.evaluate context none row
  let admitted ← projection.admitsRow context row
  pure (if admitted then [row] else [])

theorem filtered_eq (rows : List Row) :
    projection.filtered context rows = collectM (fun row => do
      let admitted ← projection.admitsRow context row
      pure (if admitted then [row] else [])) rows := by
  unfold Project.filtered Project.admitsRow
  cases projection.predicate with
  | none =>
    have hall := collectM_eq_flatMap (f := fun row : Row => (.ok [row] : Result (List Row)))
      (g := fun row => [row]) fun (_ : Row) (_ : _ ∈ rows) => rfl
    rw [List.flatMap_singleton'] at hall
    exact hall.symm
  | some predicate => rfl

section

variable (hplain : projection.aggregated = false)
include hplain

theorem selected_ok (rows selected : List Row) :
    projection.selected context rows = .ok selected ↔
      collectM (selectedRow context projection) rows = .ok selected := by
  unfold Project.selected Project.projected
  rw [hplain, if_neg Bool.false_ne_true, mapM_eq_collectM]
  have htwo := collectM_bind_collectM_ok (f := fun row => do
    let admitted ← projection.admitsRow context row
    pure (if admitted then [row] else []))
    (g := fun row => projection.evaluate context none row >>= fun row => pure [row]) rows selected
  simp only [filtered_eq]
  rw [htwo]
  refine collectM_congr_ok ?_ selected
  intro row _ part
  simp only [bind_assoc, pure_bind, collectM_singleton]
  exact Iff.rfl

theorem selected_length {rows selected : List Row}
    (h : projection.selected context rows = .ok selected) : selected.length ≤ rows.length := by
  rw [selected_ok hplain] at h
  refine collectM_length ?_ h
  intro row part hpart
  obtain ⟨_, _, hpart⟩ := except_bind_ok hpart
  obtain ⟨admitted, _, hpart⟩ := except_bind_ok hpart
  cases hpart
  cases admitted <;> simp

/-- One batch of a projection without ORDER BY. -/
theorem projectRelation_bare
    (hordering : projection.ordering = []) {batch : List Row} (hbatch : batch.length ≤ U64_MAX) :
    projectRelation context selection limits projection.bare batch =
      (projection.selected context batch >>= fun rows =>
        pure (rows.map fun row => row.restrict projection.outputs)) := by
  have hselected : projection.bare.selected context = projection.selected context := by
    cases projection
    cases hordering
    rfl
  rw [projectRelation_unordered rfl, hselected]
  show (projection.selected context batch >>= _) = _
  cases hrows : projection.selected context batch with
  | error e => rfl
  | ok rows =>
    have hlength := (selected_length hplain hrows).trans hbatch
    show Except.ok (((⟨0, U64_MAX⟩ : Window).apply rows).map _) = Except.ok _
    rw [Window.apply_eq _ hlength, Window.positions, List.drop_zero, List.take_of_length_le hlength]
    rfl

end

/-! ## §3. The result. -/

theorem compareColumns_restrict {slots : List Slot} : ∀ {columns : List Slot}, columns ⊆ slots →
    ∀ a b : Row, compareColumns columns (a.restrict slots) (b.restrict slots) =
      compareColumns columns a b := by
  intro columns
  induction columns with
  | nil => exact fun _ _ _ => rfl
  | cons slot columns ih =>
    intro hsub a b
    rw [List.cons_subset] at hsub
    rw [compareColumns, compareColumns, Row.restrict_of_mem a hsub.1, Row.restrict_of_mem b hsub.1,
      ih hsub.2]

/-- Releasing values out of scope does not change what is distinct. -/
theorem deduplicated_restrict (hdistinct : projection.distinct = true) (rows : List Row) :
    (projection.deduplicated rows).map (fun row => row.restrict projection.outputs) =
      dedupRuns (compareColumns projection.outputs) (stableSort (compareColumns projection.outputs)
        (rows.map fun row => row.restrict projection.outputs)) := by
  have hcompare : compareColumns projection.outputs = fun a b =>
      compareColumns projection.outputs (a.restrict projection.outputs)
        (b.restrict projection.outputs) := by
    funext a b
    exact (compareColumns_restrict (List.Subset.refl _) a b).symm
  rw [Project.deduplicated, if_pos hdistinct, ← map_stableSort, ← map_dedupRuns, ← hcompare]

/-- All batches together select what the whole relation does. -/
theorem collectM_bare_ok (hplain : projection.aggregated = false)
    (hordering : projection.ordering = []) (input : Relation) {batches : List (List Row)}
    (hsplit : batches.flatten = input.rows) (released : List Row) :
    collectM (projectRelation context selection limits projection.bare) batches = .ok released ↔
      ∃ rows, projection.selected context input.rows = .ok rows ∧
        released = rows.map fun row => row.restrict projection.outputs := by
  have hbatch : ∀ batch ∈ batches, ∀ part,
      projectRelation context selection limits projection.bare batch = .ok part ↔
        collectM (fun row => selectedRow context projection row >>= fun rows =>
          pure (rows.map fun row => row.restrict projection.outputs)) batch = .ok part := by
    intro batch hmem part
    have hlength : batch.length ≤ U64_MAX := by
      refine (List.Sublist.length_le ?_).trans input.counted
      rw [← hsplit]
      exact List.sublist_flatten_of_mem hmem
    rw [projectRelation_bare hplain hordering hlength, collectM_map, except_bind_eq_ok,
      except_bind_eq_ok]
    simp [selected_ok hplain]
  rw [collectM_congr_ok hbatch, ← collectM_flatten, hsplit, collectM_map, except_bind_eq_ok]
  simp only [selected_ok hplain]
  constructor
  · rintro ⟨rows, hrows, h⟩
    exact ⟨rows, hrows, (Except.ok.inj h).symm⟩
  · rintro ⟨rows, hrows, rfl⟩
    exact ⟨rows, hrows, rfl⟩

/-- The classes of the released rows, in the order of the columns. -/
def classesOf (projection : Project) (released : List Row) : List Row :=
  dedupRuns (compareColumns projection.outputs)
    (stableSort (compareColumns projection.outputs) released)

theorem foldlM_distinctBatch (keep : Nat) (batches : List (List Row)) :
    batches.foldlM (distinctBatch context selection limits projection keep) [] =
      (collectM (projectRelation context selection limits projection.bare) batches >>=
        fun released => pure ((classesOf projection released).take keep)) := by
  have hstep : ∀ entries batch, distinctBatch context selection limits projection keep entries batch =
      (projectRelation context selection limits projection.bare batch >>= fun rows =>
        pure (rows.foldl (pushNew (compareColumns projection.outputs) keep) entries)) :=
    fun _ _ => rfl
  rw [foldlM_eq_collectM hstep]
  simp only [foldl_pushNew]
  rfl

theorem classes_counted (hplain : projection.aggregated = false) (input : Relation)
    {selected : List Row} (h : projection.selected context input.rows = .ok selected) :
    (classesOf projection (selected.map fun row => row.restrict projection.outputs)).length ≤
      U64_MAX := by
  refine (dedupRuns_sublist _ _).length_le.trans ?_
  rw [(stableSort_perm _ _).length_eq, List.length_map]
  exact (selected_length hplain h).trans input.counted

/-- What both executors return. -/
def DistinctResult (context : Context) (projection : Project) (input : Relation)
    (rows : List Row) : Prop :=
  ∃ window selected, Window.evaluate context projection.skip projection.limit = .ok window ∧
    projection.selected context input.rows = .ok selected ∧
    rows = window.positions (classesOf projection
      (selected.map fun row => row.restrict projection.outputs))

theorem projectRelation_distinct (hdistinct : projection.distinct = true)
    (hplain : projection.aggregated = false) (hordering : projection.ordering = [])
    (input : Relation) (rows : List Row) :
    projectRelation context selection limits projection input.rows = .ok rows ↔
      DistinctResult context projection input rows := by
  rw [projectRelation_unordered hordering]
  have hrows : ∀ (window : Window) {selected : List Row},
      projection.selected context input.rows = .ok selected →
      (window.apply (projection.deduplicated selected)).map
          (fun row => row.restrict projection.outputs) =
        window.positions (classesOf projection
          (selected.map fun row => row.restrict projection.outputs)) := by
    intro window selected hselected
    have hlength := classes_counted hplain input hselected
    rw [← window.apply_eq hlength, classesOf, ← deduplicated_restrict hdistinct]
    unfold Window.apply
    rw [List.map_drop, List.map_take]
  constructor
  · intro h
    obtain ⟨window, hwindow, h⟩ := except_bind_ok h
    obtain ⟨selected, hselected, h⟩ := except_bind_ok h
    exact ⟨window, selected, hwindow, hselected, (Except.ok.inj h).symm.trans
      (hrows window hselected)⟩
  · rintro ⟨window, selected, hwindow, hselected, rfl⟩
    rw [hwindow, ← hrows window hselected, hselected]
    rfl

theorem distinctBatches_result (hplain : projection.aggregated = false)
    (hordering : projection.ordering = []) (input : Relation) {batches : List (List Row)}
    (hsplit : batches.flatten = input.rows) (rows : List Row) :
    distinctBatches context selection limits projection batches = .ok rows ↔
      DistinctResult context projection input rows := by
  have hwindow : ∀ (window : Window) {selected : List Row},
      projection.selected context input.rows = .ok selected →
      ((((classesOf projection (selected.map fun row => row.restrict projection.outputs)).take
        window.retainedRows).drop window.skip).take window.limit) =
      window.positions (classesOf projection
        (selected.map fun row => row.restrict projection.outputs)) := by
    intro window selected hselected
    have hlength := classes_counted hplain input hselected
    rw [window.drop_take_retainedRows hlength, Window.positions, List.take_take, min_self]
  constructor
  · intro h
    obtain ⟨window, hevaluate, h⟩ := except_bind_ok h
    rw [foldlM_distinctBatch, bind_assoc] at h
    obtain ⟨released, hreleased, h⟩ := except_bind_ok h
    obtain ⟨selected, hselected, rfl⟩ :=
      (collectM_bare_ok hplain hordering input hsplit _).mp hreleased
    refine ⟨window, selected, hevaluate, hselected, ?_⟩
    rw [← hwindow window hselected]
    exact (Except.ok.inj h).symm
  · rintro ⟨window, selected, hevaluate, hselected, rfl⟩
    have hreleased : collectM (projectRelation context selection limits projection.bare) batches =
        .ok (selected.map fun row => row.restrict projection.outputs) :=
      (collectM_bare_ok hplain hordering input hsplit _).mpr ⟨selected, hselected, rfl⟩
    refine except_bind_eq_ok.mpr ⟨window, hevaluate, ?_⟩
    rw [foldlM_distinctBatch, hreleased, ← hwindow window hselected]
    rfl

/-- **Incremental DISTINCT** returns what projecting the whole relation does,
however the input is split: a window of the classes in the order of the columns,
each by the row that came first.  At any time the classes retained are the
smallest ones seen so far, no more than the window can return. -/
theorem distinctBatches_ok (context : Context) (selection : RowSelection) (limits : Limits)
    (projection : Project) (hdistinct : projection.distinct = true)
    (hplain : projection.aggregated = false) (hordering : projection.ordering = [])
    (input : Relation) {batches : List (List Row)} (hsplit : batches.flatten = input.rows) :
    (∀ rows, distinctBatches context selection limits projection batches = .ok rows ↔
      projectRelation context selection limits projection input.rows = .ok rows) ∧
    (∀ rows, distinctBatches context selection limits projection batches = .ok rows →
      ∃ window released classes,
        Window.evaluate context projection.skip projection.limit = .ok window ∧
        collectM (projectRelation context selection limits projection.bare) batches =
          .ok released ∧
        rows = window.positions classes ∧
        classes.Pairwise (fun a b => compareColumns projection.outputs a b = .lt) ∧
        ∀ row, row ∈ classes ↔
          released.find? (fun x => compareColumns projection.outputs x row == .eq) = some row) ∧
    ∀ (keep : Nat) (seen : List (List Row)) (entries : List Row),
      seen.foldlM (distinctBatch context selection limits projection keep) [] = .ok entries →
        entries.length ≤ keep ∧ ∃ released,
          collectM (projectRelation context selection limits projection.bare) seen = .ok released ∧
          entries = (classesOf projection released).take keep := by
  refine ⟨?_, ?_, ?_⟩
  · intro rows
    rw [distinctBatches_result hplain hordering input hsplit,
      projectRelation_distinct hdistinct hplain hordering]
  · intro rows hrows
    obtain ⟨window, selected, hwindow, hselected, hrows⟩ :=
      (distinctBatches_result hplain hordering input hsplit rows).mp hrows
    refine ⟨window, _, _, hwindow,
      (collectM_bare_ok hplain hordering input hsplit _).mpr ⟨selected, hselected, rfl⟩, hrows,
      sorted_dedupRuns _ (sorted_stableSort _ _), ?_⟩
    exact fun row => mem_dedupRuns_stableSort _
  · intro keep seen entries hseen
    rw [foldlM_distinctBatch] at hseen
    obtain ⟨released, hreleased, hentries⟩ := except_bind_ok hseen
    cases hentries
    exact ⟨List.length_take_le _ _, released, hreleased, rfl⟩

/-- `DISTINCT` of one column. -/
def distinctColumn : Project where
  items := [⟨0, .slot 0⟩]
  distinct := true
  ordering := []
  predicate := none
  skip := none
  limit := some (.literal (.integer 1))

/-- The integer one, then the float one. -/
def twoOnes : Relation where
  rows := [fun _ => .integer 1, fun _ => .float 0x3FF0000000000000]
  counted := by decide

theorem distinctBatches_twoOnes :
    ∃ rows, projectRelation storelessContext sortingSelection ⟨1⟩ distinctColumn twoOnes.rows =
        .ok rows ∧
      distinctBatches storelessContext sortingSelection ⟨1⟩ distinctColumn
        [[fun _ => .integer 1], [], [fun _ => .float 0x3FF0000000000000]] = .ok rows :=
  ⟨_, rfl, ((distinctBatches_ok storelessContext sortingSelection ⟨1⟩ distinctColumn rfl rfl rfl
    twoOnes rfl).1 _).mpr rfl⟩

end HelixDb.Relational
