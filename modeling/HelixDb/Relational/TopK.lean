/-
  HelixDb.Relational.TopK

  **THE TOP-K CONSUMER**: an ordered projection with LIMIT, batch by batch.

  A bounded heap holds the rows that a window may still keep.  Rows are ranked by
  their ORDER BY keys and then by their ordinal, so no two compare equal and the
  ascending order of the heap's entries is the only one: the heap is kept in it,
  its greatest entry last.

    • `topKBatches_ok` — for every split into batches the result is the window of
      the stable sort of all admitted rows;
    • `topKBatch_heap` — what the heap holds between two batches.
-/
import HelixDb.Relational.Projection

namespace HelixDb.Relational

open HelixDb.Lib

/-! ## §1. Ranked rows. -/

/-- A row with its place in the input. -/
structure RankedRow (ordering : List OrderKey) extends KeyedRow ordering where
  ordinal : Nat

/-- The keys, then the ordinal. -/
def RankedRow.cmp {ordering : List OrderKey} : RankedRow ordering → RankedRow ordering → Ordering :=
  compareLex (fun a b => a.toKeyedRow.cmp b.toKeyedRow) (compareOn RankedRow.ordinal)

instance RankedRow.instTransCmpKeys (ordering : List OrderKey) :
    Std.TransCmp fun a b : RankedRow ordering => a.toKeyedRow.cmp b.toKeyedRow where
  eq_swap := Std.OrientedCmp.eq_swap
  isLE_trans := Std.TransCmp.isLE_trans

instance RankedRow.instTransCmp (ordering : List OrderKey) :
    Std.TransCmp (RankedRow.cmp : RankedRow ordering → RankedRow ordering → Ordering) :=
  inferInstanceAs (Std.TransCmp (compareLex _ _))

/-- `retained_rows`. -/
def Window.retainedRows (window : Window) : Nat :=
  if window.limit = 0 then 0 else saturatingAdd window.skip window.limit

/-- The rows kept and the number of rows seen. -/
structure TopK (ordering : List OrderKey) where
  heap : List (RankedRow ordering)
  ordinal : Nat

namespace TopK

variable {ordering : List OrderKey}

/-- Nothing seen yet. -/
def new : TopK ordering := { heap := [], ordinal := 0 }

/-- One more candidate, with the next ordinal. -/
def push (keep : Nat) (topK : TopK ordering) (entry : KeyedRow ordering) : TopK ordering where
  heap := pushBounded RankedRow.cmp keep topK.heap { entry with ordinal := topK.ordinal }
  ordinal := saturatingAdd topK.ordinal 1

/-- The rows behind the skipped ones. -/
def intoRows (topK : TopK ordering) (skip : Nat) : List Row :=
  (topK.heap.drop skip).map fun entry => entry.row

end TopK

/-! ## §2. Batches. -/

section Batches

variable (context : Context) (projection : Project)

/-- Whether the projection's WHERE admits a projected row. -/
def Project.admitsRow (row : Row) : Result Bool :=
  match projection.predicate with
  | none => .ok true
  | some predicate => selects context predicate row

/-- One projected row: values out of scope are released once it has its keys. -/
def topKRow (keep : Nat) (topK : TopK projection.ordering) (row : Row) :
    Result (TopK projection.ordering) := do
  let admitted ← projection.admitsRow context row
  if admitted then do
    let keys ← evalKeys context row projection.ordering
    pure (topK.push keep { keys, row := row.restrict projection.outputs })
  else pure topK

/-- The rows of one batch. -/
def topKBatch (keep : Nat) (topK : TopK projection.ordering) (batch : List Row) :
    Result (TopK projection.ordering) := do
  let projected ← batch.mapM (projection.evaluate context none)
  projected.foldlM (topKRow context projection keep) topK

/-- `top_k_batches`. -/
def topKBatches (batches : List (List Row)) : Result (List Row) := do
  let window ← Window.evaluate context projection.skip projection.limit
  let topK ← batches.foldlM (topKBatch context projection window.retainedRows) TopK.new
  pure (topK.intoRows window.skip)

end Batches

/-! ## §3. The heap is the front of a stable sort. -/

section Heap

variable {ordering : List OrderKey}

/-- The entries with their ordinals. -/
def rankFrom (ordinal : Nat) : List (KeyedRow ordering) → List (RankedRow ordering)
  | [] => []
  | entry :: entries => { entry with ordinal } :: rankFrom (saturatingAdd ordinal 1) entries

section

variable (entries : List (KeyedRow ordering))
include entries

theorem rankFrom_ordinal :
    ∀ {ordinal : Nat}, ordinal ≤ U64_MAX → ∀ entry ∈ rankFrom ordinal entries,
      ordinal ≤ entry.ordinal := by
  induction entries with
  | nil => exact fun _ _ h => nomatch h
  | cons first entries ih =>
    intro ordinal hordinal
    refine List.forall_mem_cons.mpr ⟨le_rfl, ?_⟩
    intro entry hentry
    exact (le_saturatingAdd hordinal).trans (ih (saturatingAdd_le _ _) entry hentry)

/-- Later rows have no smaller ordinals. -/
theorem rankFrom_sorted :
    ∀ {ordinal : Nat}, ordinal ≤ U64_MAX → (rankFrom ordinal entries).Pairwise
      fun a b => compareOn RankedRow.ordinal b a ≠ .lt := by
  induction entries with
  | nil => exact fun _ => .nil
  | cons first entries ih =>
    intro ordinal hordinal
    refine .cons ?_ (ih (saturatingAdd_le _ _))
    intro entry hentry hlt
    have hle := rankFrom_ordinal entries (saturatingAdd_le _ _) entry hentry
    have hlt : entry.ordinal < ordinal := compare_lt_iff_lt.mp hlt
    have hle := (le_saturatingAdd hordinal).trans hle
    omega

theorem map_toKeyedRow_rankFrom :
    ∀ ordinal, (rankFrom ordinal entries).map RankedRow.toKeyedRow = entries := by
  induction entries with
  | nil => exact fun _ => rfl
  | cons first entries ih =>
    intro ordinal
    rw [rankFrom, List.map_cons, ih]

end

theorem foldl_push_heap (keep : Nat) (entries : List (KeyedRow ordering)) :
    ∀ topK : TopK ordering, (entries.foldl (TopK.push keep) topK).heap =
      (rankFrom topK.ordinal entries).foldl (pushBounded RankedRow.cmp keep) topK.heap := by
  induction entries with
  | nil => exact fun _ => rfl
  | cons first entries ih => exact fun topK => ih (topK.push keep first)

/-- **The heap** holds the first entries of a stable sort by the keys alone. -/
theorem foldl_push_eq (keep : Nat) (entries : List (KeyedRow ordering)) :
    (entries.foldl (TopK.push keep) TopK.new).heap.map RankedRow.toKeyedRow =
      (stableSort KeyedRow.cmp entries).take keep := by
  rw [foldl_push_heap]
  show ((rankFrom 0 entries).foldl (pushBounded RankedRow.cmp keep) []).map _ = _
  rw [foldl_pushBounded, List.map_take]
  congr 1
  rw [RankedRow.cmp, stableSort_then _ (rankFrom_sorted entries (Nat.zero_le _)),
    map_stableSort KeyedRow.cmp, map_toKeyedRow_rankFrom]

end Heap

/-! ## §4. Every split into batches. -/

section Split

variable {context : Context} {projection : Project}

/-- What one projected row contributes. -/
def admittedEntry (context : Context) (projection : Project) (row : Row) :
    Result (List (KeyedRow projection.ordering)) := do
  let admitted ← projection.admitsRow context row
  if admitted then do
    let entry ← keyRow context projection.ordering row
    pure [entry]
  else pure []

/-- An entry with the values that stay in scope. -/
def KeyedRow.release {ordering : List OrderKey} (outputs : List Slot) (entry : KeyedRow ordering) :
    KeyedRow ordering := { entry with row := entry.row.restrict outputs }

theorem topKRow_eq (keep : Nat) (topK : TopK projection.ordering) (row : Row) :
    topKRow context projection keep topK row =
      (admittedEntry context projection row >>= fun entries => pure (entries.foldl
        (fun topK entry => topK.push keep (entry.release projection.outputs)) topK)) := by
  unfold topKRow admittedEntry keyRow
  cases projection.admitsRow context row with
  | error e => rfl
  | ok admitted =>
    cases admitted with
    | false => rfl
    | true =>
      show (evalKeys context row projection.ordering >>= _) =
        ((evalKeys context row projection.ordering >>= _) >>= _) >>= _
      cases evalKeys context row projection.ordering <;> rfl

/-- WHERE, then the keys: in two passes or row by row. -/
theorem filtered_keyed_ok (rows : List Row) (entries : List (KeyedRow projection.ordering)) :
    (projection.filtered context rows >>= fun rows =>
        rows.mapM (keyRow context projection.ordering)) = .ok entries ↔
      collectM (admittedEntry context projection) rows = .ok entries := by
  unfold Project.filtered admittedEntry Project.admitsRow
  cases projection.predicate with
  | none =>
    show rows.mapM _ = _ ↔ _
    rw [mapM_eq_collectM]
    exact Iff.rfl
  | some predicate =>
    simp only [mapM_eq_collectM, collectM_bind_collectM_ok]
    refine collectM_congr_ok ?_ entries
    intro row _ part
    unfold filterRow
    cases selects context predicate row with
    | error e => exact Iff.rfl
    | ok keep =>
      cases keep with
      | false => exact Iff.rfl
      | true =>
        show collectM _ [row] = _ ↔ _
        rw [collectM_singleton]
        exact Iff.rfl

/-- What one row of the input contributes. -/
def inputEntry (context : Context) (projection : Project) (row : Row) :
    Result (List (KeyedRow projection.ordering)) :=
  projection.evaluate context none row >>= admittedEntry context projection

theorem mapM_admitted_ok (rows : List Row) (entries : List (KeyedRow projection.ordering)) :
    (rows.mapM (projection.evaluate context none) >>= collectM (admittedEntry context projection)) =
        .ok entries ↔ collectM (inputEntry context projection) rows = .ok entries := by
  rw [mapM_eq_collectM, collectM_bind_collectM_ok]
  refine collectM_congr_ok ?_ entries
  intro row _ part
  simp only [bind_assoc, pure_bind, collectM_singleton]
  exact Iff.rfl

/-- The rows that ORDER BY sorts, row by row. -/
theorem orderedEntries_ok (hplain : projection.aggregated = false)
    (hall : projection.distinct = false) (rows : List Row)
    (entries : List (KeyedRow projection.ordering)) :
    projection.orderedEntries context rows = .ok entries ↔
      collectM (inputEntry context projection) rows = .ok entries := by
  unfold Project.orderedEntries Project.projected Project.deduplicated
  rw [← mapM_admitted_ok]
  simp only [hplain, hall, Bool.false_eq_true, if_false, except_bind_eq_ok, ← filtered_keyed_ok]

theorem topKBatch_eq (keep : Nat) (topK : TopK projection.ordering) (batch : List Row) :
    topKBatch context projection keep topK batch =
      ((batch.mapM (projection.evaluate context none) >>=
          collectM (admittedEntry context projection)) >>= fun entries => pure (entries.foldl
        (fun topK entry => topK.push keep (entry.release projection.outputs)) topK)) := by
  unfold topKBatch
  rw [bind_assoc]
  congr 1
  funext projected
  exact foldlM_eq_collectM (topKRow_eq keep) projected topK

theorem inputEntry_length {rows : List Row} {entries : List (KeyedRow projection.ordering)}
    (h : collectM (inputEntry context projection) rows = .ok entries) :
    entries.length ≤ rows.length := by
  refine collectM_length ?_ h
  intro row part hpart
  obtain ⟨_, _, hpart⟩ := except_bind_ok hpart
  obtain ⟨admitted, _, hpart⟩ := except_bind_ok hpart
  cases admitted with
  | false =>
    cases hpart
    exact Nat.zero_le 1
  | true =>
    obtain ⟨entry, _, hpart⟩ := except_bind_ok hpart
    cases hpart
    exact le_rfl

/-- What a window retains ends where the window does. -/
theorem Window.drop_take_retainedRows {α : Type} (window : Window) {rows : List α}
    (h : rows.length ≤ U64_MAX) :
    (rows.take window.retainedRows).drop window.skip = window.positions rows := by
  rw [← window.apply_eq h]
  unfold retainedRows
  split_ifs with hlimit
  · rw [window.apply_eq h, Window.positions, hlimit, List.take_zero, List.take_zero, List.drop_nil]
  · rfl

theorem foldl_push_intoRows (window : Window) {entries : List (KeyedRow projection.ordering)}
    (h : entries.length ≤ U64_MAX) :
    (entries.foldl (fun topK entry => topK.push window.retainedRows
        (entry.release projection.outputs)) TopK.new).intoRows window.skip =
      (window.positions (stableSort KeyedRow.cmp entries)).map
        fun entry => entry.row.restrict projection.outputs := by
  have hheap := foldl_push_eq window.retainedRows
    (entries.map (KeyedRow.release projection.outputs))
  rw [List.foldl_map, ← map_stableSort KeyedRow.cmp (KeyedRow.release projection.outputs)] at hheap
  unfold TopK.intoRows
  have hrows : ∀ heap : List (RankedRow projection.ordering),
      (heap.drop window.skip).map (fun entry => entry.row) =
        ((heap.map RankedRow.toKeyedRow).drop window.skip).map KeyedRow.row := by
    intro heap
    rw [← List.map_drop, List.map_map]
    rfl
  rw [hrows, hheap, ← List.map_take, ← List.map_drop, List.map_map]
  have hlength : (stableSort KeyedRow.cmp entries).length ≤ U64_MAX := by
    rwa [(stableSort_perm _ _).length_eq]
  have hwindow := window.drop_take_retainedRows hlength
  exact congrArg (List.map _) hwindow

/-- **The top-k consumer** returns the window of the stable sort of all rows that
WHERE admits, however the input is split. -/
theorem topKBatches_ok (hplain : projection.aggregated = false) (hall : projection.distinct = false)
    (input : Relation) {batches : List (List Row)} (hsplit : batches.flatten = input.rows)
    (rows : List Row) :
    topKBatches context projection batches = .ok rows ↔
      ∃ window entries, Window.evaluate context projection.skip projection.limit = .ok window ∧
        projection.orderedEntries context input.rows = .ok entries ∧
        rows = (window.positions (stableSort KeyedRow.cmp entries)).map
          fun entry => entry.row.restrict projection.outputs := by
  have hbatches : ∀ entries,
      collectM (fun batch => batch.mapM (projection.evaluate context none) >>=
        collectM (admittedEntry context projection)) batches = .ok entries ↔
      projection.orderedEntries context input.rows = .ok entries := by
    intro entries
    rw [orderedEntries_ok hplain hall, ← hsplit, collectM_flatten]
    exact collectM_congr_ok (fun batch _ part => mapM_admitted_ok batch part) entries
  have hlength : ∀ {entries}, projection.orderedEntries context input.rows = .ok entries →
      entries.length ≤ U64_MAX := fun hentries =>
    (inputEntry_length ((orderedEntries_ok hplain hall _ _).mp hentries)).trans input.counted
  unfold topKBatches
  rw [except_bind_eq_ok]
  constructor
  · rintro ⟨window, hwindow, hrows⟩
    rw [foldlM_eq_collectM (topKBatch_eq _), bind_assoc] at hrows
    obtain ⟨entries, hentries, hrows⟩ := except_bind_ok hrows
    have hentries := (hbatches entries).mp hentries
    refine ⟨window, entries, hwindow, hentries, ?_⟩
    rw [← foldl_push_intoRows window (hlength hentries)]
    exact (Except.ok.inj hrows).symm
  · rintro ⟨window, entries, hwindow, hentries, rfl⟩
    refine ⟨window, hwindow, ?_⟩
    rw [foldlM_eq_collectM (topKBatch_eq _), (hbatches entries).mpr hentries,
      ← foldl_push_intoRows window (hlength hentries)]
    rfl

/-- **The heap between two batches.**  After any part of the input it holds the first `keep` rows of
the stable sort of what was admitted so far, so it never outgrows the window. -/
theorem topKBatch_heap (keep : Nat) (seen : List (List Row))
    (heap : List (KeyedRow projection.ordering)) :
    (seen.foldlM (topKBatch context projection keep) TopK.new).map
        (fun topK => topK.heap.map RankedRow.toKeyedRow) = .ok heap ↔
      ∃ entries, collectM (inputEntry context projection) seen.flatten = .ok entries ∧
        heap = (stableSort KeyedRow.cmp
          (entries.map (KeyedRow.release projection.outputs))).take keep := by
  have hpush := fun entries : List (KeyedRow projection.ordering) =>
    foldl_push_eq keep (entries.map (KeyedRow.release projection.outputs))
  simp only [List.foldl_map] at hpush
  rw [foldlM_eq_collectM (topKBatch_eq _), collectM_flatten]
  constructor
  · intro h
    obtain ⟨topK, hfold, rfl⟩ := except_map_ok h
    obtain ⟨entries, hentries, hheap⟩ := except_bind_ok hfold
    cases hheap
    exact ⟨entries, (collectM_congr_ok (fun batch _ => mapM_admitted_ok batch) entries).mp hentries,
      hpush entries⟩
  · rintro ⟨entries, hentries, rfl⟩
    rw [(collectM_congr_ok (fun batch _ => mapM_admitted_ok batch) entries).mpr hentries]
    exact congrArg Except.ok (hpush entries)

end Split

end HelixDb.Relational
