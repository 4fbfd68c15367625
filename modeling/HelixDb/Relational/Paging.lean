/-
  HelixDb.Relational.Paging

  **PAGES OF AN ORDERED RESULT.**

  The top-k consumer breaks ties by position.  The path that groups or removes
  duplicates cuts its rows at the end of the window before the stable sort, by a
  selection that need not be stable: rows with equal keys may change sides of the
  cut, and the cut moves with the page.

    • `SelectNth.map_cut` — a cut is invisible where equal keys mean equal rows;
    • `pairwise_of_swapping` — and otherwise some selection shows it;
    • `pages_iff` — when pages are parts of one ordered result;
    • `threeTied_pages` — a row on two pages, and a row on none.
-/
import HelixDb.Relational.OrderedInput

namespace HelixDb.Relational

open HelixDb.Lib List
open KeyedRow (cmp)

/-! ## §1. Cutting before sorting. -/

namespace SelectNth

variable {α β : Type} {c : α → α → Ordering} [Std.TransCmp c]

theorem tied_symm {f : α → β} {a b : α} (h : c a b = .eq → f a = f b) : c b a = .eq → f b = f a :=
  fun hba => (h (Std.OrientedCmp.eq_symm hba)).symm

/-- **A cut is invisible** where equals look the same. -/
theorem map_cut (selection : SelectNth c) {f : α → β} {l : List α}
    (hf : l.Pairwise fun a b => c a b = .eq → f a = f b) {keep : Nat} (hkeep : keep < l.length) :
    (stableSort c ((selection.select keep l).take keep)).map f =
      ((stableSort c l).take keep).map f := by
  have hperm := selection.perm keep l
  have hlow := stableSort_perm c ((selection.select keep l).take keep)
  have hhigh := stableSort_perm c ((selection.select keep l).drop keep)
  have hall : (stableSort c ((selection.select keep l).take keep) ++
      stableSort c ((selection.select keep l).drop keep)).Perm (stableSort c l) := by
    have htogether := hlow.append hhigh
    rw [take_append_drop] at htogether
    exact (htogether.trans hperm).trans (stableSort_perm c l).symm
  have hsorted : (stableSort c ((selection.select keep l).take keep) ++
      stableSort c ((selection.select keep l).drop keep)).Pairwise
        fun a b => (c a b).isLE = true := by
    refine pairwise_append.mpr ⟨sorted_stableSort c _, sorted_stableSort c _, ?_⟩
    intro a ha b hb
    exact selection.split hkeep a (hlow.mem_iff.mp ha) b (hhigh.mem_iff.mp hb)
  have hsymm : Std.Symm fun a b => c a b = .eq → f a = f b := ⟨fun _ _ => tied_symm⟩
  have hmap : map f _ = map f _ :=
    map_eq_of_sorted_perm c hall hsorted (sorted_stableSort c l) fun a ha b hb =>
      hf.forall_of_forall (fun _ _ _ => rfl)
        ((hall.trans (stableSort_perm c l)).mem_iff.mp ha) ((stableSort_perm c l).mem_iff.mp hb)
  have hlength : (stableSort c ((selection.select keep l).take keep)).length = keep := by
    rw [hlow.length_eq, length_take, hperm.length_eq, min_eq_left hkeep.le]
  rw [map_take, ← hmap, ← map_take, take_left' hlength]

/-- The list around two neighbours. -/
theorem eq_around {l : List α} {i : Nat} {a b : α} (ha : l[i]? = some a)
    (hb : l[i + 1]? = some b) : l = l.take i ++ a :: b :: l.drop (i + 2) := by
  obtain ⟨hi, rfl⟩ := List.getElem?_eq_some_iff.mp ha
  obtain ⟨hi', rfl⟩ := List.getElem?_eq_some_iff.mp hb
  rw [← drop_eq_getElem_cons hi', ← drop_eq_getElem_cons hi, take_append_drop]

/-- Sort, then put two neighbours the other way round if they are equal and the
cut falls between them. -/
def swapTied (c : α → α → Ordering) (i index : Nat) (l : List α) : List α :=
  match (stableSort c l)[i]?, (stableSort c l)[i + 1]? with
  | some a, some b =>
    if index = i + 1 ∧ c a b = .eq then
      (stableSort c l).take i ++ b :: a :: (stableSort c l).drop (i + 2)
    else stableSort c l
  | _, _ => stableSort c l

/-- The two outcomes of a swap. -/
theorem swapTied_cases (c : α → α → Ordering) (i index : Nat) (l : List α) :
    swapTied c i index l = stableSort c l ∨ ∃ front a b back, index = i + 1 ∧ front.length = i ∧
      c a b = .eq ∧ stableSort c l = front ++ a :: b :: back ∧
      swapTied c i index l = front ++ b :: a :: back := by
  unfold swapTied
  split
  next a b ha hb =>
    split
    next htied =>
      have hi : i < (stableSort c l).length := (List.getElem?_eq_some_iff.mp ha).1
      exact .inr ⟨_, a, b, _, htied.1, by rw [length_take, min_eq_left hi.le], htied.2,
        eq_around ha hb, rfl⟩
    next => exact .inl rfl
  next => exact .inl rfl

/-- A selection as good as any other. -/
def swapping (c : α → α → Ordering) [Std.TransCmp c] (i : Nat) : SelectNth c where
  select := swapTied c i
  perm := by
    intro index l
    rcases swapTied_cases c i index l with h | ⟨front, a, b, back, -, -, -, hsort, h⟩
    · rw [h]
      exact stableSort_perm c l
    · rw [h]
      refine List.Perm.trans ?_ (stableSort_perm c l)
      rw [hsort]
      exact (List.Perm.swap a b back).append_left front
  split := by
    intro index l hindex x hx y hy
    have hsorted := sorted_stableSort c l
    rcases swapTied_cases c i index l with h | ⟨front, a, b, back, rfl, hfront, htied, hsort, h⟩
    · rw [h] at hx hy
      rw [← take_append_drop index (stableSort c l)] at hsorted
      exact (pairwise_append.mp hsorted).2.2 x hx y hy
    · have hcut : front ++ b :: a :: back = (front ++ [b]) ++ a :: back := by simp
      have hlength : (front ++ [b]).length = i + 1 := by simp [hfront]
      rw [h, hcut, ← hlength, take_left] at hx
      rw [h, hcut, ← hlength, drop_left] at hy
      rw [hsort] at hsorted
      obtain ⟨-, hpair, hacross⟩ := pairwise_append.mp hsorted
      rw [pairwise_cons, pairwise_cons] at hpair
      rcases mem_append.mp hx with hx | hx
      · refine hacross x hx y ?_
        rcases mem_cons.mp hy with rfl | hy
        · exact mem_cons_self
        · exact mem_cons_of_mem _ (mem_cons_of_mem _ hy)
      · rw [mem_singleton.mp hx]
        rcases mem_cons.mp hy with rfl | hy
        · rw [Std.OrientedCmp.eq_symm htied]
          rfl
        · exact hpair.2.1 y hy

/-- The swap, where the cut falls between two equals. -/
theorem swapTied_eq {l : List α} {i : Nat} {a b : α} (ha : (stableSort c l)[i]? = some a)
    (hb : (stableSort c l)[i + 1]? = some b) (htied : c a b = .eq) :
    stableSort c ((swapTied c i (i + 1) l).take (i + 1)) = (stableSort c l).take i ++ [b] := by
  have hi : i < (stableSort c l).length := (List.getElem?_eq_some_iff.mp ha).1
  have htake : ((stableSort c l).take i).length = i := by rw [length_take, min_eq_left hi.le]
  have hsorted := sorted_stableSort c l
  rw [eq_around ha hb] at hsorted
  obtain ⟨hfront, -, hacross⟩ := pairwise_append.mp hsorted
  unfold swapTied
  simp only [ha, hb, htied, and_self, if_true]
  have hcut : ((stableSort c l).take i ++ b :: a :: (stableSort c l).drop (i + 2)).take (i + 1) =
      (stableSort c l).take i ++ [b] := by
    rw [take_append, htake, Nat.add_sub_cancel_left, take_succ_cons, take_zero,
      take_of_length_le (htake.le.trans (Nat.le_succ i))]
  rw [hcut]
  refine stableSort_of_sorted c (pairwise_append.mpr ⟨hfront, pairwise_singleton _ _, ?_⟩)
  intro x hx y hy
  rw [mem_singleton.mp hy]
  exact hacross x hx b (mem_cons_of_mem _ mem_cons_self)

/-- **Otherwise some selection shows the cut.** -/
theorem pairwise_of_swapping {f : α → β} {l : List α} (h : ∀ i, i + 1 < l.length →
      ((stableSort c (((swapping c i).select (i + 1) l).take (i + 1))).map f)[i]? =
        ((stableSort c l).map f)[i]?) : l.Pairwise fun a b => c a b = .eq → f a = f b := by
  have hlength := (stableSort_perm c l).length_eq
  refine List.Pairwise.perm ?_ (stableSort_perm c l) tied_symm
  -- In a sorted list, equals lie side by side: it is enough to look at neighbours.
  have hchain : (stableSort c l).IsChain fun a b =>
      (c a b).isLE = true ∧ (c a b = .eq → f a = f b) := by
    rw [isChain_iff_getElem]
    intro i hi
    refine ⟨pairwise_iff_getElem.mp (sorted_stableSort c l) i (i + 1) (by omega) hi (by omega),
      ?_⟩
    intro htied
    have hlast := h i (by omega)
    have hcut := swapTied_eq (getElem?_eq_getElem (by omega)) (getElem?_eq_getElem hi) htied
    have hfront : ((stableSort c l).take i).length = i := by
      rw [length_take, min_eq_left (by omega)]
    rw [show (swapping c i).select = swapTied c i from rfl, hcut, getElem?_map,
      getElem?_map, getElem?_append_right hfront.le, hfront, Nat.sub_self,
      getElem?_eq_getElem (by omega : i < (stableSort c l).length)] at hlast
    exact (Option.some.inj hlast).symm
  have htrans : Trans (fun a b => (c a b).isLE = true ∧ (c a b = .eq → f a = f b))
      (fun a b => (c a b).isLE = true ∧ (c a b = .eq → f a = f b))
      (fun a b => (c a b).isLE = true ∧ (c a b = .eq → f a = f b)) := by
    refine ⟨?_⟩
    rintro x y z ⟨hxy, hfxy⟩ ⟨hyz, hfyz⟩
    refine ⟨Std.TransCmp.isLE_trans hxy hyz, fun hxz => ?_⟩
    have hzx : (c z x).isLE = true := by rw [Std.OrientedCmp.eq_symm hxz]; rfl
    rw [hfxy (Std.OrientedCmp.isLE_antisymm hxy (Std.TransCmp.isLE_trans hyz hzx)),
      hfyz (Std.OrientedCmp.isLE_antisymm hyz (Std.TransCmp.isLE_trans hzx hxy))]
  exact (isChain_iff_pairwise.mp hchain).imp And.right

end SelectNth

/-! ## §2. Pages. -/

section Pages

variable (context : Context) (limits : Limits) (projection : Project)

/-- The same projection with another window. -/
def Project.paged (skip limit : Option Expression) : Project := { projection with skip, limit }

/-- The columns that a row keeps. -/
def KeyedRow.columns (outputs : List Slot) {ordering : List OrderKey} (entry : KeyedRow ordering) :
    Row :=
  entry.row.restrict outputs

/-- Rows with equal keys have equal columns. -/
def Project.TiesAgree (rows : List Row) : Prop :=
  ∀ entries, projection.orderedEntries context rows = .ok entries →
    entries.Pairwise fun a b => cmp a b = .eq →
      KeyedRow.columns projection.outputs a = KeyedRow.columns projection.outputs b

/-- **Pages of one ordered result**: every window returns its positions of the
result without a window, so consecutive pages follow each other in it. -/
structure Project.PagesAgree (input : Relation) : Prop where
  sorted : ∀ (selection : RowSelection) (rows : List Row),
    projectRelation context selection limits (projection.paged none none) input.rows = .ok rows ↔
      ∃ entries, projection.orderedEntries context input.rows = .ok entries ∧
        rows = (stableSort cmp entries).map (KeyedRow.columns projection.outputs)
  positions : ∀ (selection : RowSelection) (skip limit : Option Expression) (page : List Row),
    projectRelation context selection limits (projection.paged skip limit) input.rows = .ok page ↔
      ∃ window rows, Window.evaluate context skip limit = .ok window ∧
        projectRelation context selection limits (projection.paged none none) input.rows = .ok rows ∧
        page = window.positions rows
  consecutive : ∀ (selection : RowSelection) (size : Nat) (pages : List (List Row)) (rows : List Row),
    projectRelation context selection limits (projection.paged none none) input.rows = .ok rows →
    rows.length ≤ size * pages.length →
    (∀ k (hk : k < pages.length), ∃ skip limit,
      Window.evaluate context skip limit = .ok ⟨k * size, size⟩ ∧
      projectRelation context selection limits (projection.paged skip limit) input.rows =
        .ok pages[k]) →
    pages.flatten = rows

end Pages

/-! ## §3. How many rows there are. -/

variable {rows grouped : List Row}

section Counting

variable {context : Context} {projection : Project}

theorem pushGroup_length (key : List Value) (base : Row) (values : List Value)
    (groups : List AggregateGroup) :
    (Project.pushGroup key base values groups).length ≤ groups.length + 1 := by
  induction groups with
  | nil => exact le_rfl
  | cons group groups ih =>
    unfold Project.pushGroup
    split
    · exact Nat.le_succ _
    · exact Nat.succ_le_succ ih

theorem aggregateRow_length {groups groups' : List AggregateGroup} {row : Row}
    (h : projection.aggregateRow context groups row = .ok groups') :
    groups'.length ≤ groups.length + 1 := by
  obtain ⟨key, _, h⟩ := except_bind_ok h
  obtain ⟨key, _, h⟩ := except_bind_ok h
  obtain ⟨values, _, h⟩ := except_bind_ok h
  cases h
  exact pushGroup_length _ _ _ _

/-- Every group has a row of its own, but for the one group of no rows. -/
theorem aggregateRows_length (h : projection.aggregateRows context rows = .ok grouped) :
    grouped.length ≤ max rows.length 1 := by
  obtain ⟨groups, hgroups, h⟩ := except_bind_ok h
  have hcount : groups.length ≤ rows.length :=
    foldlM_invariant (fun (done : List Row) (groups : List AggregateGroup) =>
      groups.length ≤ done.length) le_rfl (by
        intro done row rest groups groups' _ hle hstep
        rw [length_append]
        exact (aggregateRow_length hstep).trans (Nat.succ_le_succ hle)) hgroups
  have hlength := (mapM_ok h).length_eq
  rw [← hlength]
  split
  · exact le_max_right _ _
  · exact hcount.trans (le_max_left _ _)

theorem length_le_flatten {α : Type} {parts : List (List α)} (h : [] ∉ parts) :
    parts.length ≤ parts.flatten.length := by
  induction parts with
  | nil => exact le_rfl
  | cons part parts ih =>
    rw [mem_cons, not_or] at h
    have hpart : 0 < part.length := length_pos_iff.mpr (Ne.symm h.1)
    have hparts := ih h.2
    rw [flatten_cons, length_append, length_cons]
    omega

theorem groupRows_length
    (h : projection.groupRows context rows = .ok grouped) : grouped.length ≤ max rows.length 1 := by
  obtain ⟨keyed, hkeyed, h⟩ := except_bind_ok h
  have hlength := (mapM_ok h).length_eq
  have hrows := (mapM_ok hkeyed).length_eq
  rw [← hlength, hrows, length_append]
  have hsplit := length_le_flatten (nil_notMem_splitBy
    (fun a b : List Value × Row => Value.totalCmpAll a.1 b.1 == .eq)
    (stableSort (fun a b => Value.totalCmpAll a.1 b.1) keyed))
  rw [flatten_splitBy, (stableSort_perm _ _).length_eq] at hsplit
  by_cases hempty : keyed = []
  · split <;> simp_all
  · have hnot : (stableSort (fun a b : List Value × Row => Value.totalCmpAll a.1 b.1) keyed).isEmpty =
        false := by
      rw [isEmpty_eq_false_iff, ← length_pos_iff, (stableSort_perm _ _).length_eq]
      exact length_pos_iff.mpr hempty
    rw [hnot]
    exact hsplit.trans (le_max_left _ _)

theorem filtered_length {rows filtered : List Row}
    (h : projection.filtered context rows = .ok filtered) : filtered.length ≤ rows.length := by
  rw [filtered_eq] at h
  refine collectM_length ?_ h
  intro row part hpart
  obtain ⟨admitted, _, hpart⟩ := except_bind_ok hpart
  cases hpart
  cases admitted <;> simp

theorem projected_length {rows projected : List Row}
    (h : projection.projected context rows = .ok projected) :
    projected.length ≤ max rows.length 1 := by
  unfold Project.projected at h
  split at h
  · split at h
    · exact aggregateRows_length h
    · exact groupRows_length h
  · rw [← (mapM_ok h).length_eq]
    exact le_max_left _ _

theorem deduplicated_length (rows : List Row) :
    (projection.deduplicated rows).length ≤ rows.length := by
  unfold Project.deduplicated
  split
  · exact (dedupRuns_sublist _ _).length_le.trans (stableSort_perm _ _).length_eq.le
  · exact le_rfl

theorem orderedEntries_counted (input : Relation) {entries : List (KeyedRow projection.ordering)}
    (h : projection.orderedEntries context input.rows = .ok entries) :
    entries.length ≤ U64_MAX := by
  obtain ⟨projected, hprojected, h⟩ := except_bind_ok h
  obtain ⟨filtered, hfiltered, h⟩ := except_bind_ok h
  calc entries.length = (projection.deduplicated filtered).length := (mapM_ok h).length_eq.symm
    _ ≤ filtered.length := deduplicated_length filtered
    _ ≤ projected.length := filtered_length hfiltered
    _ ≤ max input.rows.length 1 := projected_length hprojected
    _ ≤ U64_MAX := max_le input.counted (by decide)

end Counting

/-! ## §4. What a window returns. -/

section Windows

variable {context : Context} {selection : RowSelection} {limits : Limits} {projection : Project}

/-- The rows of a window, on either path. -/
def Project.windowRows (projection : Project) (selection : RowSelection) (window : Window)
    (entries : List (KeyedRow projection.ordering)) : List (KeyedRow projection.ordering) :=
  if projection.usesTopK window then window.positions (stableSort cmp entries)
  else window.apply (sortWindow selection window entries)

theorem projectMaterialized_ok (hordering : projection.ordering ≠ []) (window : Window)
    (rows page : List Row) :
    projectMaterialized context selection projection window rows = .ok page ↔
      ∃ entries, projection.orderedEntries context rows = .ok entries ∧
        page = (window.apply (sortWindow selection window entries)).map
          (KeyedRow.columns projection.outputs) := by
  have hnonempty : projection.ordering.isEmpty = false := isEmpty_eq_false_iff.mpr hordering
  have heq : projectMaterialized context selection projection window rows =
      (projection.orderedEntries context rows >>= fun entries =>
        pure ((window.apply (sortWindow selection window entries)).map
          (KeyedRow.columns projection.outputs))) := by
    unfold projectMaterialized Project.orderedEntries orderRows
    simp only [hnonempty, if_neg Bool.false_ne_true, bind_assoc, pure_bind]
    congr 1
    funext rows
    congr 1
    funext rows
    congr 1
    funext entries
    unfold Window.apply
    rw [← map_take, ← map_drop, map_map]
    rfl
  rw [heq, except_bind_eq_ok]
  refine exists_congr fun entries => and_congr_right fun _ => ?_
  exact ⟨fun h => (Except.ok.inj h).symm, fun h => h ▸ rfl⟩

/-- **An ordered projection**, with its window. -/
theorem projectRelation_ordered_ok (hordering : projection.ordering ≠ []) (input : Relation)
    (page : List Row) :
    projectRelation context selection limits projection input.rows = .ok page ↔
      ∃ window entries, Window.evaluate context projection.skip projection.limit = .ok window ∧
        projection.orderedEntries context input.rows = .ok entries ∧
        page = (projection.windowRows selection window entries).map
          (KeyedRow.columns projection.outputs) := by
  unfold projectRelation
  rw [except_bind_eq_ok]
  refine exists_congr fun window => ?_
  unfold Project.windowRows
  cases htopK : projection.usesTopK window with
  | false =>
    rw [if_neg Bool.false_ne_true, projectMaterialized_ok hordering]
    simp
  | true =>
    have hplain : projection.aggregated = false ∧ projection.distinct = false := by
      unfold Project.usesTopK at htopK
      simp only [Bool.and_eq_true, Bool.not_eq_true'] at htopK
      exact htopK.1.1
    rw [if_pos rfl, topKBatches_ok hplain.1 hplain.2 input (flatten_rowBatches limits input.rows)]
    constructor
    · rintro ⟨hwindow, window', entries, hwindow', hentries, hpage⟩
      cases hwindow.symm.trans hwindow'
      exact ⟨entries, hwindow, hentries, hpage⟩
    · rintro ⟨entries, hwindow, hentries, hpage⟩
      exact ⟨hwindow, window, entries, hwindow, hentries, hpage⟩

/-- The positions of a window, whichever path it takes, where ties agree. -/
theorem windowRows_columns {window : Window} {entries : List (KeyedRow projection.ordering)}
    (hcounted : entries.length ≤ U64_MAX) (hties : projection.usesTopK window = true ∨
      entries.length ≤ saturatingAdd window.skip window.limit ∨
      entries.Pairwise fun a b => cmp a b = .eq →
        KeyedRow.columns projection.outputs a = KeyedRow.columns projection.outputs b) :
    (projection.windowRows selection window entries).map (KeyedRow.columns projection.outputs) =
      window.positions ((stableSort cmp entries).map
        (KeyedRow.columns projection.outputs)) := by
  have hpositions : ∀ rows : List (KeyedRow projection.ordering),
      (window.positions rows).map (KeyedRow.columns projection.outputs) =
        window.positions (rows.map (KeyedRow.columns projection.outputs)) := by
    intro rows
    unfold Window.positions
    rw [map_take, map_drop]
  have hsorted : (stableSort cmp entries).length ≤ U64_MAX := by
    rwa [(stableSort_perm _ _).length_eq]
  unfold Project.windowRows
  split
  next => exact hpositions _
  next htopK =>
    have hties := hties.resolve_left htopK
    rw [← hpositions, ← window.apply_eq hsorted]
    unfold sortWindow
    simp only
    split
    next hkeep =>
      have hties := hties.resolve_left (not_le.mpr hkeep)
      unfold Window.apply
      rw [map_drop, map_take, (selection projection.ordering).map_cut hties hkeep,
        ← map_take, take_take, min_self, ← map_drop]
    next => rfl

/-- Without a window every row is returned. -/
theorem projectRelation_unwindowed (hordering : projection.ordering ≠ []) (input : Relation)
    (rows : List Row) :
    projectRelation context selection limits (projection.paged none none) input.rows = .ok rows ↔
      ∃ entries, projection.orderedEntries context input.rows = .ok entries ∧
        rows = (stableSort cmp entries).map (KeyedRow.columns projection.outputs) := by
  have hpaged : (projection.paged none none).ordering ≠ [] := hordering
  rw [projectRelation_ordered_ok hpaged]
  have hrows : ∀ {entries : List (KeyedRow projection.ordering)},
      projection.orderedEntries context input.rows = .ok entries →
      ((projection.paged none none).windowRows selection ⟨0, U64_MAX⟩ entries).map
          (KeyedRow.columns projection.outputs) =
        (stableSort cmp entries).map (KeyedRow.columns projection.outputs) := by
    intro entries hentries
    have hcounted := orderedEntries_counted input hentries
    have hkeep : saturatingAdd 0 U64_MAX = U64_MAX := by decide
    refine (windowRows_columns hcounted (.inr (.inl (hkeep ▸ hcounted)))).trans ?_
    unfold Window.positions
    rw [drop_zero, take_of_length_le]
    rwa [length_map, (stableSort_perm _ _).length_eq]
  constructor
  · rintro ⟨window, entries, hwindow, hentries, rfl⟩
    cases hwindow
    exact ⟨entries, hentries, hrows hentries⟩
  · rintro ⟨entries, hentries, rfl⟩
    exact ⟨⟨0, U64_MAX⟩, entries, rfl, hentries, (hrows hentries).symm⟩

end Windows

/-! ## §5. When pages agree. -/

section Agreement

variable {context : Context} {limits : Limits} {projection : Project}

theorem positions_of_ties (hordering : projection.ordering ≠ []) (input : Relation)
    (hties : projection.aggregated = false ∧ projection.distinct = false ∨
      projection.TiesAgree context input.rows) (selection : RowSelection)
    (skip limit : Option Expression) (page : List Row) :
    projectRelation context selection limits (projection.paged skip limit) input.rows = .ok page ↔
      ∃ window rows, Window.evaluate context skip limit = .ok window ∧
        projectRelation context selection limits (projection.paged none none) input.rows = .ok rows ∧
        page = window.positions rows := by
  have hpaged : (projection.paged skip limit).ordering ≠ [] := hordering
  simp only [projectRelation_ordered_ok hpaged, projectRelation_unwindowed hordering]
  have hrows : ∀ (window : Window) {entries : List (KeyedRow projection.ordering)},
      projection.orderedEntries context input.rows = .ok entries →
      ((projection.paged skip limit).windowRows selection window entries).map
          (KeyedRow.columns projection.outputs) =
        window.positions ((stableSort cmp entries).map
          (KeyedRow.columns projection.outputs)) := by
    intro window entries hentries
    have hcounted := orderedEntries_counted input hentries
    refine windowRows_columns hcounted ?_
    rcases hties with hplain | hties
    · by_cases hlimit : window.limit = U64_MAX
      · refine .inr (.inl ?_)
        rwa [hlimit, saturatingAdd, min_eq_right (Nat.le_add_left _ _)]
      · refine .inl ?_
        unfold Project.usesTopK
        rw [hplain.1, hplain.2, isEmpty_eq_false_iff.mpr hordering]
        simpa using hlimit
    · exact .inr (.inr (hties entries hentries))
  constructor
  · rintro ⟨window, entries, hwindow, hentries, rfl⟩
    exact ⟨window, _, hwindow, ⟨entries, hentries, rfl⟩, hrows window hentries⟩
  · rintro ⟨window, _, hwindow, ⟨entries, hentries, rfl⟩, rfl⟩
    exact ⟨window, entries, hwindow, hentries, (hrows window hentries).symm⟩

/-- The pages of one size, one after the other. -/
theorem flatten_positions (size : Nat) {pages : List (List Row)}
    (hpages : ∀ k (hk : k < pages.length), pages[k] = (⟨k * size, size⟩ : Window).positions rows) :
    pages.flatten = rows.take (pages.length * size) := by
  induction pages using reverseRecOn with
  | nil => simp
  | append_singleton pages page ih =>
    have hlast := hpages pages.length (by simp)
    rw [getElem_append_right le_rfl] at hlast
    have hfront : ∀ k (hk : k < pages.length),
        pages[k] = (⟨k * size, size⟩ : Window).positions rows := by
      intro k hk
      have hpage := hpages k (by rw [length_append]; omega)
      rwa [getElem_append_left hk] at hpage
    rw [flatten_append, ih hfront, length_append]
    simp only [Nat.sub_self, getElem_cons_zero] at hlast
    rw [hlast, flatten_singleton, Window.positions, length_singleton, Nat.succ_mul,
      take_add]

/-- A count as an expression. -/
def countLiteral (n : Nat) : Option Expression := some (.literal (.integer (Int64.ofNat n)))

theorem evaluateOffset_countLiteral (default : Nat) {n : Nat} (hn : n < 2 ^ 63) :
    evaluateOffset context default (countLiteral n) = .ok n := by
  show (if 0 ≤ (Int64.ofNat n).toInt then Except.ok (Int64.ofNat n).toInt.toNat else _) = .ok n
  rw [Int64.toInt_ofNat_of_lt hn, if_pos (Int.natCast_nonneg n), Int.toNat_natCast]

theorem evaluate_countLiteral {skip limit : Nat} (hskip : skip < 2 ^ 63) (hlimit : limit < 2 ^ 63) :
    Window.evaluate context (countLiteral skip) (countLiteral limit) = .ok ⟨skip, limit⟩ := by
  unfold Window.evaluate
  rw [evaluateOffset_countLiteral _ hskip, evaluateOffset_countLiteral _ hlimit]
  rfl

/-- **Ties must agree** off the top-k path, or some page goes wrong. -/
theorem tiesAgree_of_pages (hordering : projection.ordering ≠ []) {input : Relation}
    (hpath : ¬ (projection.aggregated = false ∧ projection.distinct = false))
    (h : projection.PagesAgree context limits input) : projection.TiesAgree context input.rows := by
  intro entries hentries
  refine SelectNth.pairwise_of_swapping fun i hi => ?_
  have hcounted : entries.length ≤ U64_MAX := orderedEntries_counted input hentries
  have hmax : U64_MAX = 2 ^ 64 - 1 := rfl
  -- A literal reaches 2 ^ 63 - 1 only, so a far end is the sum of two.
  obtain ⟨skip, limit, hskip, hlimit, hle, hend⟩ : ∃ skip limit : Nat, skip < 2 ^ 63 ∧
      limit < 2 ^ 63 ∧ skip ≤ i ∧ skip + limit = i + 1 :=
    ⟨min i (2 ^ 63 - 1), i + 1 - min i (2 ^ 63 - 1), by omega, by omega, by omega, by omega⟩
  have hwindow : Window.evaluate context (countLiteral skip) (countLiteral limit) =
    .ok ⟨skip, limit⟩ := evaluate_countLiteral hskip hlimit
  have hkeep : saturatingAdd skip limit = i + 1 := by
    unfold saturatingAdd
    omega
  have hpaged : (projection.paged (countLiteral skip) (countLiteral limit)).ordering ≠ [] := hordering
  let selection : RowSelection := fun _ => .swapping cmp i
  have hpage : projectRelation context selection limits
      (projection.paged (countLiteral skip) (countLiteral limit)) input.rows = .ok _ :=
    (projectRelation_ordered_ok hpaged input _).mpr ⟨⟨skip, limit⟩, entries, hwindow, hentries, rfl⟩
  obtain ⟨window, rows, hwindow', hrows, hpositions⟩ := (h.positions _ _ _ _).mp hpage
  cases hwindow.symm.trans hwindow'
  obtain ⟨entries', hentries', rfl⟩ := (h.sorted _ _).mp hrows
  cases hentries.symm.trans hentries'
  have htopK : (projection.paged (countLiteral skip) (countLiteral limit)).usesTopK ⟨skip, limit⟩ ≠
      true := by
    intro htopK
    unfold Project.usesTopK at htopK
    simp only [Bool.and_eq_true, Bool.not_eq_true'] at htopK
    exact hpath htopK.1.1
  unfold Project.windowRows at hpositions
  rw [if_neg htopK] at hpositions
  -- The page ends with row `i`, and the cut is right behind it.
  calc _ = (((⟨skip, limit⟩ : Window).apply (sortWindow selection ⟨skip, limit⟩ entries)).map
          (KeyedRow.columns projection.outputs))[i - skip]? := by
        unfold Window.apply sortWindow
        simp only [hkeep, if_pos hi]
        rw [map_drop, map_take, getElem?_drop, Nat.add_sub_cancel' hle,
          getElem?_take_of_lt (Nat.lt_succ_self i)]
    _ = ((⟨skip, limit⟩ : Window).positions ((stableSort cmp entries).map
          (KeyedRow.columns projection.outputs)))[i - skip]? := congrArg (·[i - skip]?) hpositions
    _ = ((stableSort cmp entries).map (KeyedRow.columns projection.outputs))[i]? := by
        have hlt : i - skip < limit := by omega
        unfold Window.positions
        rw [getElem?_take_of_lt hlt, getElem?_drop, Nat.add_sub_cancel' hle]

end Agreement

/-- **Pages of an ordered result.**  They are parts of one stable sort exactly
where the projection neither groups nor removes duplicates, or rows with equal
keys have equal columns. -/
theorem pages_iff (context : Context) (limits : Limits) (projection : Project)
    (hordering : projection.ordering ≠ []) (input : Relation) :
    projection.PagesAgree context limits input ↔
      (projection.aggregated = false ∧ projection.distinct = false ∨
        projection.TiesAgree context input.rows) := by
  constructor
  · intro h
    by_cases hpath : projection.aggregated = false ∧ projection.distinct = false
    · exact .inl hpath
    · exact .inr (tiesAgree_of_pages hordering hpath h)
  · intro hties
    refine ⟨fun selection rows => projectRelation_unwindowed hordering input rows,
      positions_of_ties hordering input hties, ?_⟩
    intro selection size pages rows hrows hcover hpages
    have hpositions : ∀ k (hk : k < pages.length),
        pages[k] = (⟨k * size, size⟩ : Window).positions rows := by
      intro k hk
      obtain ⟨skip, limit, hwindow, hpage⟩ := hpages k hk
      obtain ⟨window, rows', hwindow', hrows', hpage⟩ :=
        (positions_of_ties hordering input hties selection skip limit _).mp hpage
      cases hwindow.symm.trans hwindow'
      cases hrows.symm.trans hrows'
      exact hpage
    rw [flatten_positions size hpositions, take_of_length_le]
    rwa [Nat.mul_comm]

/-! ## §6. A row on two pages. -/

namespace SelectNth

variable {α : Type} (c : α → α → Ordering)

/-- The first element that no other exceeds, and the last, change places. -/
def swapLast (l : List α) : List α :=
  let greatest := l.findIdx fun x => l.all fun y => (c y x).isLE
  match l[greatest]?, l[l.length - 1]? with
  | some a, some b => (l.set greatest b).set (l.length - 1) a
  | _, _ => l

theorem swapLast_perm (l : List α) : (swapLast c l).Perm l := by
  unfold swapLast
  simp only
  split
  next a b ha hb =>
    obtain ⟨hgreatest, rfl⟩ := List.getElem?_eq_some_iff.mp ha
    obtain ⟨hlast, rfl⟩ := List.getElem?_eq_some_iff.mp hb
    exact set_set_perm hgreatest hlast
  next => exact List.Perm.refl l

variable [Std.TransCmp c]

theorem exists_greatest {l : List α} (h : l ≠ []) : ∃ x ∈ l, ∀ y ∈ l, (c y x).isLE = true := by
  have hperm := stableSort_perm c l
  have hne : stableSort c l ≠ [] := fun hnil => h (nil_perm.mp (hnil ▸ hperm))
  refine ⟨(stableSort c l).getLast hne, hperm.mem_iff.mp (getLast_mem hne), ?_⟩
  intro y hy
  have hsorted := sorted_stableSort c l
  rw [← dropLast_append_getLast hne] at hsorted
  have hy := hperm.mem_iff.mpr hy
  rw [← dropLast_append_getLast hne] at hy
  rcases mem_append.mp hy with hy | hy
  · exact (pairwise_append.mp hsorted).2.2 y hy _ (mem_singleton_self _)
  · have hself : c y y = .eq := Std.ReflCmp.compare_self
    rw [← mem_singleton.mp hy, hself]
    rfl

/-- After the swap, the last element is a greatest one. -/
theorem swapLast_drop {l : List α} {index : Nat} (hindex : index + 1 = l.length) :
    ∃ a, (swapLast c l).drop index = [a] ∧ ∀ y ∈ l, (c y a).isLE = true := by
  have hne : l ≠ [] := by
    rintro rfl
    cases hindex
  obtain ⟨x, hx, hall⟩ := exists_greatest c hne
  have hfound : (l.findIdx fun x => l.all fun y => (c y x).isLE) < l.length :=
    findIdx_lt_length_of_exists ⟨x, hx, all_eq_true.mpr hall⟩
  have hgreatest : (l.all fun y => (c y (l[l.findIdx fun x => l.all fun y => (c y x).isLE])).isLE) =
      true := findIdx_getElem (w := hfound)
  have hlast : l.length - 1 = index := by omega
  have hlt : index < l.length := by omega
  refine ⟨l[l.findIdx fun x => l.all fun y => (c y x).isLE], ?_, all_eq_true.mp hgreatest⟩
  unfold swapLast
  simp only [hlast, getElem?_eq_getElem hfound, getElem?_eq_getElem hlt]
  rw [drop_eq_getElem_cons (by simpa using hlt)]
  simp [hindex]

/-- The standard library's selection, as far as it is used below: for the last
index it looks for the greatest element only; fewer than sixteen elements are
otherwise sorted by insertion. -/
def greatestLast : SelectNth c where
  select index l := if index + 1 = l.length then swapLast c l else stableSort c l
  perm := by
    intro index l
    split
    · exact swapLast_perm c l
    · exact stableSort_perm c l
  split := by
    intro index l hindex a ha b hb
    split at ha
    next hlast =>
      rw [if_pos hlast] at hb
      obtain ⟨greatest, hdrop, hgreatest⟩ := swapLast_drop c hlast
      rw [hdrop, mem_singleton] at hb
      rw [hb]
      exact hgreatest a ((swapLast_perm c l).mem_iff.mp (mem_of_mem_take ha))
    next hlast =>
      rw [if_neg hlast] at hb
      have hsorted := sorted_stableSort c l
      rw [← take_append_drop index (stableSort c l)] at hsorted
      exact (pairwise_append.mp hsorted).2.2 a ha b hb

end SelectNth

/-- `RETURN DISTINCT a, b ORDER BY a`. -/
def tiedProjection : Project where
  items := [⟨0, .slot 0⟩, ⟨1, .slot 1⟩]
  distinct := true
  ordering := [⟨.slot 0, false⟩]
  predicate := none
  skip := none
  limit := none

/-- A row with sort key 1. -/
def tiedRow (b : Int64) : Row := fun slot =>
  if slot = 0 then .integer 1 else if slot = 1 then .integer b else .null

/-- Three rows that tie. -/
def threeTied : Relation where
  rows := [tiedRow 1, tiedRow 2, tiedRow 3]
  counted := by decide

/-- A row with its key. -/
def tiedEntry (b : Int64) : KeyedRow tiedProjection.ordering := ⟨⟨[.integer 1], rfl⟩, tiedRow b⟩

theorem tiedProjection_evaluate (b : Int64) :
    tiedProjection.evaluate storelessContext none (tiedRow b) = .ok (tiedRow b) := by
  show Except.ok (tiedProjection.install (tiedRow b) [.integer 1, .integer b]) = _
  congr 1
  funext slot
  show Function.update (Function.update (fun slot => if tiedProjection.keepsInput slot &&
    !tiedProjection.outputs.contains slot then tiedRow b slot else .null) 0 (.integer 1)) 1
      (.integer b) slot = tiedRow b slot
  by_cases h1 : slot = 1
  · subst h1
    rfl
  · by_cases h0 : slot = 0
    · subst h0
      rfl
    · rw [Function.update_of_ne h1, Function.update_of_ne h0, tiedRow, if_neg h0, if_neg h1, ite_self]

theorem tiedRow_restrict (b : Int64) : (tiedRow b).restrict tiedProjection.outputs = tiedRow b := by
  funext slot
  by_cases hslot : slot ∈ tiedProjection.outputs
  · rw [Row.restrict_of_mem _ hslot]
  · have hne : slot ≠ 0 ∧ slot ≠ 1 := by simpa [tiedProjection, Project.outputs] using hslot
    rw [Row.restrict_of_not_mem _ hslot, tiedRow, if_neg hne.1, if_neg hne.2]

theorem threeTied_entries : tiedProjection.orderedEntries storelessContext threeTied.rows =
    .ok [tiedEntry 1, tiedEntry 2, tiedEntry 3] := by
  have hprojected : tiedProjection.projected storelessContext threeTied.rows = .ok threeTied.rows := by
    have hevaluate : ∀ row ∈ threeTied.rows,
        tiedProjection.evaluate storelessContext none row = .ok (id row) := by
      intro row hrow
      unfold threeTied at hrow
      simp only [mem_cons, not_mem_nil, or_false] at hrow
      rcases hrow with rfl | rfl | rfl
      · exact tiedProjection_evaluate 1
      · exact tiedProjection_evaluate 2
      · exact tiedProjection_evaluate 3
    show threeTied.rows.mapM (tiedProjection.evaluate storelessContext none) = _
    rw [mapM_eq_map hevaluate, map_id]
  have hsorted : threeTied.rows.Pairwise fun a b =>
      (compareColumns tiedProjection.outputs a b).isLE = true := by decide +kernel
  have hdistinct : tiedProjection.deduplicated threeTied.rows = threeTied.rows := by
    show dedupRuns _ (stableSort _ threeTied.rows) = _
    rw [stableSort_of_sorted _ hsorted]
    rfl
  unfold Project.orderedEntries
  rw [hprojected]
  show (tiedProjection.deduplicated threeTied.rows).mapM _ = _
  rw [hdistinct]
  rfl

theorem threeTied_sort : stableSort cmp [tiedEntry 1, tiedEntry 2, tiedEntry 3] =
    [tiedEntry 1, tiedEntry 2, tiedEntry 3] :=
  stableSort_of_sorted _ (by decide +kernel)

/-- **A row on two pages, and a row on none.**  The first page of two rows has the
third row and not the first, and so has the second page. -/
theorem threeTied_pages :
    projectRelation storelessContext (fun _ => .greatestLast cmp) ⟨1⟩
        (tiedProjection.paged (countLiteral 0) (countLiteral 2)) threeTied.rows =
      .ok [tiedRow 3, tiedRow 2] ∧
    projectRelation storelessContext (fun _ => .greatestLast cmp) ⟨1⟩
        (tiedProjection.paged (countLiteral 2) (countLiteral 2)) threeTied.rows =
      .ok [tiedRow 3] ∧
    projectRelation storelessContext (fun _ => .greatestLast cmp) ⟨1⟩
        (tiedProjection.paged none none) threeTied.rows =
      .ok [tiedRow 1, tiedRow 2, tiedRow 3] := by
  have hwindow : ∀ skip limit : Nat, skip < 2 ^ 63 → limit < 2 ^ 63 → Window.evaluate
      storelessContext (countLiteral skip) (countLiteral limit) = .ok ⟨skip, limit⟩ :=
    fun _ _ => evaluate_countLiteral
  have hcolumns : ∀ b, KeyedRow.columns tiedProjection.outputs (tiedEntry b) = tiedRow b :=
    tiedRow_restrict
  have hlast : stableSort cmp [tiedEntry 3, tiedEntry 2] = [tiedEntry 3, tiedEntry 2] :=
    stableSort_of_sorted _ (by decide +kernel)
  refine ⟨?_, ?_, ?_⟩
  · refine (projectRelation_ordered_ok (cons_ne_nil _ _) threeTied _).mpr
      ⟨⟨0, 2⟩, _, hwindow 0 2 (by decide) (by decide), threeTied_entries, ?_⟩
    show _ = ((stableSort cmp [tiedEntry 3, tiedEntry 2]).take 2).map
      (KeyedRow.columns tiedProjection.outputs)
    rw [hlast]
    simp [hcolumns]
  · refine (projectRelation_ordered_ok (cons_ne_nil _ _) threeTied _).mpr
      ⟨⟨2, 2⟩, _, hwindow 2 2 (by decide) (by decide), threeTied_entries, ?_⟩
    show _ = (((stableSort cmp [tiedEntry 1, tiedEntry 2, tiedEntry 3]).take 4).drop 2).map
      (KeyedRow.columns tiedProjection.outputs)
    rw [threeTied_sort]
    exact congrArg (fun row => [row]) (hcolumns 3).symm
  · refine (projectRelation_unwindowed (cons_ne_nil _ _) threeTied _).mpr
      ⟨_, threeTied_entries, ?_⟩
    rw [threeTied_sort]
    simp [hcolumns]

theorem pages_iff_threeTied :
    tiedProjection.ordering ≠ [] ∧
    (tiedProjection.PagesAgree storelessContext ⟨1⟩ threeTied ↔
      (tiedProjection.aggregated = false ∧ tiedProjection.distinct = false ∨
        tiedProjection.TiesAgree storelessContext threeTied.rows)) :=
  ⟨cons_ne_nil _ _,
    pages_iff storelessContext ⟨1⟩ tiedProjection (cons_ne_nil _ _) threeTied⟩

end HelixDb.Relational
