/-
  HelixDb.Lib.SortedSearch

  **SEARCHING A SORTED LIST** by a comparison.

  The search halves a window until one place is left and never looks at the
  window's ends; it finds some place that compares equal, not a chosen one.
  Comparisons of structured values are presented by keys: lists of integers,
  each key of a kind that no other key continues, compared lexicographically.

    • `binarySearchBy_isSome` — a sorted list with an equal element is found,
    • `orderCmp_cons`, `orderCmp_append_listKey` — keys compare part by part.
-/
import HelixDb.Lib.Bytes
import HelixDb.Lib.CompareCode
import HelixDb.Lib.FoldM

namespace HelixDb.Lib

open List

/-! ## §1. Binary search. -/

/-- The window of `binary_search_by`: its base once one place is left. -/
def searchBase (probe : Nat → Ordering) (base size : Nat) : Nat :=
  if 1 < size then
    let half := size / 2
    searchBase probe (if probe (base + half) = .gt then base else base + half) (size - half)
  else base
termination_by size

/-- `slice::binary_search_by`: the index of `Ok`. -/
def binarySearchBy {α : Type} (probe : α → Ordering) (values : List α) : Option Nat :=
  if values = [] then none
  else
    let at_ (i : Nat) : Ordering := (values[i]?).elim .gt probe
    let base := searchBase at_ 0 values.length
    if at_ base = .eq then some base else none

/-- The probes ascend along the list. -/
def Ascending {α : Type} (probe : α → Ordering) (values : List α) : Prop :=
  values.Pairwise fun a b => (probe a = .gt → probe b = .gt) ∧ (probe b = .lt → probe a = .lt)

/-- **The window's base is the last place that is not greater**, or the first place. -/
theorem searchBase_last {f : Nat → Ordering} {n : Nat}
    (hgt : ∀ i j, i < j → j < n → f i = .gt → f j = .gt) (base size : Nat) (hpos : 0 < size)
    (hwindow : base + size ≤ n) (hstart : base = 0 ∨ f base ≠ .gt)
    (hend : ∀ j, base + size ≤ j → j < n → f j = .gt) :
    searchBase f base size < n ∧ (searchBase f base size = 0 ∨ f (searchBase f base size) ≠ .gt) ∧
      ∀ j, searchBase f base size < j → j < n → f j = .gt := by
  induction size using Nat.strong_induction_on generalizing base with
  | _ size ih =>
    by_cases hsize : 1 < size
    · have hstep : searchBase f base size =
          searchBase f (if f (base + size / 2) = .gt then base else base + size / 2)
            (size - size / 2) := by
        rw [searchBase, if_pos hsize]
      rw [hstep]
      split_ifs with hmid
      · refine ih (size - size / 2) (by omega) base (by omega) (by omega) hstart ?_
        intro j hj hjn
        rcases Nat.eq_or_lt_of_le (show base + size / 2 ≤ j by omega) with heq | hlt
        · rwa [← heq]
        · exact hgt _ _ hlt hjn hmid
      · refine ih (size - size / 2) (by omega) _ (by omega) (by omega) (.inr hmid) ?_
        intro j hj hjn
        exact hend j (by omega) hjn
    · rw [searchBase, if_neg hsize]
      exact ⟨by omega, hstart, fun j hj hjn => hend j (by omega) hjn⟩

/-- **The window keeps an equal place.** -/
theorem searchBase_eq {f : Nat → Ordering} {n : Nat}
    (hgt : ∀ i j, i < j → j < n → f i = .gt → f j = .gt)
    (hlt : ∀ i j, i < j → j < n → f j = .lt → f i = .lt) {k : Nat} (hhigh : k < n)
    (hk : f k = .eq) : f (searchBase f 0 n) = .eq := by
  obtain ⟨hbase, hstart, hend⟩ := searchBase_last hgt 0 n (by omega) (by omega) (.inl rfl)
    fun j hj hjn => absurd hj (by omega)
  generalize searchBase f 0 n = base at hbase hstart hend ⊢
  rcases lt_trichotomy k base with hbefore | rfl | hafter
  · -- The base lies behind an equal place, and is not greater.
    cases hf : f base with
    | eq => rfl
    | gt => exact absurd hf (hstart.resolve_left (by omega))
    | lt =>
      simp [hlt _ _ hbefore hbase hf] at hk
  · exact hk
  · simp [hend k hafter hhigh] at hk

variable {α : Type} {probe : α → Ordering} {values : List α}

/-- What is found compares equal. -/
theorem binarySearchBy_some {i : Nat} (h : binarySearchBy probe values = some i) :
    ∃ value, values[i]? = some value ∧ probe value = .eq := by
  unfold binarySearchBy at h
  by_cases hnil : values = []
  · simp [if_pos hnil] at h
  · rw [if_neg hnil] at h
    simp only [Option.ite_none_right_eq_some, Option.some.injEq] at h
    obtain ⟨hprobe, rfl⟩ := h
    cases hget : values[searchBase (fun i => (values[i]?).elim .gt probe) 0 values.length]? with
    | none =>
      simp [hget] at hprobe
    | some value =>
      rw [hget] at hprobe
      exact ⟨value, rfl, hprobe⟩

/-- **An equal element of an ascending list is found**, or one that compares alike. -/
theorem binarySearchBy_isSome (hsorted : Ascending probe values) {value : α}
    (hmem : value ∈ values) (hvalue : probe value = .eq) :
    ∃ i, binarySearchBy probe values = some i := by
  obtain ⟨k, hk, rfl⟩ := getElem_of_mem hmem
  have hnil : values ≠ [] := ne_nil_of_mem hmem
  have hpairs := pairwise_iff_getElem.mp hsorted
  have hat : ∀ i (hi : i < values.length), (values[i]?).elim .gt probe = probe values[i] := by
    intro i hi
    rw [getElem?_eq_getElem hi]
    rfl
  have hfound := searchBase_eq (f := fun i => (values[i]?).elim .gt probe)
    (fun i j hij hj h => by
      rw [hat j hj]
      rw [hat i (hij.trans hj)] at h
      exact (hpairs i j (hij.trans hj) hj hij).1 h)
    (fun i j hij hj h => by
      rw [hat i (hij.trans hj)]
      rw [hat j hj] at h
      exact (hpairs i j (hij.trans hj) hj hij).2 h)
    hk ((hat k hk).trans hvalue)
  unfold binarySearchBy
  rw [if_neg hnil]
  exact ⟨_, if_pos hfound⟩

/-! ## §2. Comparisons by key. -/

/-- The order of vectors: the first difference decides, then the length. -/
def lexCompare {β : Type} (compare : β → β → Ordering) : List β → List β → Ordering
  | [], [] => .eq
  | [], _ :: _ => .lt
  | _ :: _, [] => .gt
  | a :: as, b :: bs => (compare a b).then (lexCompare compare as bs)

/-- The key of a sequence: each element behind a one, then a zero. -/
def listKey {β : Type} (key : β → List ℤ) : List β → List ℤ
  | [] => [0]
  | b :: bs => 1 :: (key b ++ listKey key bs)

/-- `cmp` of a linear order, whatever decides it. -/
def orderCmp {κ : Type} [LinearOrder κ] (a b : κ) : Ordering := cmp a b

section OrderCmp

variable {κ : Type} [LinearOrder κ] {a b : κ}

theorem orderCmp_self (a : κ) : orderCmp a a = .eq := cmp_self_eq_eq a

theorem orderCmp_lt_iff : orderCmp a b = .lt ↔ a < b := cmp_eq_lt_iff a b

theorem orderCmp_eq_iff : orderCmp a b = .eq ↔ a = b := cmp_eq_eq_iff a b

theorem orderCmp_gt_iff : orderCmp a b = .gt ↔ b < a := cmp_eq_gt_iff a b

end OrderCmp

theorem orderCmp_cons (x y : ℤ) (xs ys : List ℤ) :
    orderCmp (x :: xs) (y :: ys) = (orderCmp x y).then (orderCmp xs ys) :=
  cmp_eq_then cons_lt_cons_iff cons_lt_cons_iff

section Keys

variable {β : Type} {compare : β → β → Ordering} {key : β → List ℤ}

/-- Keys present a comparison: whatever follows them, they decide first. -/
def Presents (compare : β → β → Ordering) (key : β → List ℤ) : Prop :=
  ∀ a b r s, orderCmp (key a ++ r) (key b ++ s) = (compare a b).then (orderCmp r s)

theorem presents_single (f : β → ℤ) : Presents (fun a b => orderCmp (f a) (f b)) fun a => [f a] :=
  fun a b r s => orderCmp_cons (f a) (f b) r s

/-- **Sequences compare as their keys do.** -/
theorem orderCmp_append_listKey {as : List β}
    (h : ∀ a ∈ as, ∀ b r s, orderCmp (key a ++ r) (key b ++ s) = (compare a b).then (orderCmp r s))
    (bs : List β) (r s : List ℤ) :
    orderCmp (listKey key as ++ r) (listKey key bs ++ s)
      = (lexCompare compare as bs).then (orderCmp r s) := by
  induction as generalizing bs with
  | nil =>
    cases bs with
    | nil => exact orderCmp_cons 0 0 r s
    | cons b bs => exact orderCmp_cons 0 1 _ _
  | cons a as ih =>
    cases bs with
    | nil => exact orderCmp_cons 1 0 _ _
    | cons b bs =>
      have htail := ih (fun x hx => h x (mem_cons_of_mem _ hx)) bs
      rw [listKey, listKey, cons_append, cons_append, orderCmp_cons,
        append_assoc, append_assoc, h a mem_cons_self, htail, lexCompare]
      cases compare a b <;> rfl

theorem Presents.list (h : Presents compare key) : Presents (lexCompare compare) (listKey key) :=
  fun _ bs r s => orderCmp_append_listKey (fun a _ => h a) bs r s

theorem lexCompare_eq_iff (as bs : List β) :
    lexCompare compare as bs = .eq ↔ List.Forall₂ (fun a b => compare a b = .eq) as bs := by
  induction as generalizing bs with
  | nil => cases bs <;> simp [lexCompare]
  | cons a as ih =>
    cases bs with
    | nil => simp [lexCompare]
    | cons b bs => rw [lexCompare, Ordering.then_eq_eq, forall₂_cons, ih]

theorem lexCompare_eq_iff_eq (hcompare : ∀ a b, compare a b = .eq ↔ a = b) (as bs : List β) :
    lexCompare compare as bs = .eq ↔ as = bs := by
  simp only [lexCompare_eq_iff, hcompare, forall₂_eq_eq_eq]

end Keys

/-- A pair compares by its first part, then by its second. -/
theorem orderCmp_prodLex {κ ι : Type} [LinearOrder κ] [LinearOrder ι] (a b : κ ×ₗ ι) :
    orderCmp a b = (orderCmp (ofLex a).1 (ofLex b).1).then (orderCmp (ofLex a).2 (ofLex b).2) :=
  cmp_eq_then Prod.Lex.lt_iff Prod.Lex.lt_iff

/-! ## §3. Sorted vectors. -/

section Keyed

variable {α κ : Type} [LinearOrder κ] {key : α → κ}

/-- Strictly ascending by key. -/
def AscendingBy (key : α → κ) (values : List α) : Prop :=
  values.Pairwise fun a b => key a < key b

variable {values : List α}

/-- Ascending lists with the same members are equal. -/
theorem AscendingBy.eq_of_mem_iff {others : List α} (h : AscendingBy key values)
    (hothers : AscendingBy key others) (hmem : ∀ value, value ∈ values ↔ value ∈ others) :
    values = others := by
  exact List.Pairwise.eq_of_mem_iff h hothers hmem

end Keyed

/-! ## §4. Records collected by key. -/

section Collect

variable {α κ ε : Type} [LinearOrder κ] {key : α → κ}

/-- A map filled one record at a time, as its values in the order of the keys: a
record that its check refuses, or whose key is taken, ends the filling. -/
def collectByKey (key : α → κ) (check : α → Except ε Unit) (duplicate : κ → ε)
    (records : List α) : Except ε (List α) :=
  records.foldlM (fun values record => do
    check record
    if ∃ value ∈ values, key value = key record then throw (duplicate (key record))
    return values.orderedInsert (fun a b => key a ≤ key b) record) []

theorem AscendingBy.nodup_map {values : List α} (h : AscendingBy key values) :
    (values.map key).Nodup :=
  pairwise_map.mpr (h.imp ne_of_lt)

theorem AscendingBy.orderedInsert {values : List α} {record : α} (h : AscendingBy key values)
    (hnew : key record ∉ values.map key) :
    AscendingBy key (values.orderedInsert (fun a b => key a ≤ key b) record) := by
  have hsorted := List.Pairwise.orderedInsert record values (h.imp le_of_lt)
  have hnodup := ((perm_orderedInsert (fun a b => key a ≤ key b) record values).map key).nodup_iff.mpr
    (nodup_cons.mpr ⟨hnew, h.nodup_map⟩)
  exact (hsorted.and (pairwise_map.mp hnodup)).imp fun h => lt_of_le_of_ne h.1 h.2

/-- **The records by key**: all of them, checked, in the order of distinct keys. -/
theorem collectByKey_eq_ok {check : α → Except ε Unit} {duplicate : κ → ε} {records values : List α} :
    collectByKey key check duplicate records = .ok values ↔
      (∀ record ∈ records, check record = .ok ()) ∧ values.Perm records ∧ AscendingBy key values := by
  -- what the loop has after the records `done`
  let Inv (done values : List α) : Prop :=
    (∀ record ∈ done, check record = .ok ()) ∧ values.Perm done ∧ AscendingBy key values
  have hinsert : ∀ {done values : List α} {record : α}, Inv done values → check record = .ok () →
      key record ∉ values.map key →
      Inv (done ++ [record]) (values.orderedInsert (fun a b => key a ≤ key b) record) := by
    intro done values record h hcheck hnew
    refine ⟨?_, ?_, h.2.2.orderedInsert hnew⟩
    · simpa [or_imp, forall_and, hcheck] using h.1
    · exact ((perm_orderedInsert _ _ _).trans (h.2.1.cons record)).trans (perm_append_singleton record done).symm
  have hsound : ∀ {values}, collectByKey key check duplicate records = .ok values →
      Inv records values := by
    intro values h
    refine foldlM_invariant Inv ⟨by simp, .nil, .nil⟩ ?_ h
    intro done record rest values values' _ hinv hstep
    obtain ⟨_, hcheck, hstep⟩ := except_bind_ok hstep
    split_ifs at hstep with htaken
    · cases hstep
    · cases hstep
      exact hinsert hinv hcheck (mt mem_map.mp htaken)
  refine ⟨hsound, fun h => ?_⟩
  have hnodup : (records.map key).Nodup := (h.2.1.map key).nodup_iff.mp h.2.2.nodup_map
  obtain ⟨final, hfinal, _, hperm, hsorted⟩ : ∃ final, collectByKey key check duplicate records =
      .ok final ∧ Inv records final := by
    refine foldlM_total Inv ⟨by simp, .nil, .nil⟩ ?_
    intro done record rest values hrecords hinv
    have hcheck : check record = .ok () := h.1 record (by simp [hrecords])
    have hnew : key record ∉ values.map key := by
      rw [(hinv.2.1.map key).mem_iff]
      rw [hrecords, map_append, nodup_append] at hnodup
      exact fun hmem => hnodup.2.2 _ hmem _ mem_cons_self rfl
    refine ⟨_, ?_, hinsert hinv hcheck hnew⟩
    rw [hcheck]
    exact if_neg (mt mem_map.mpr hnew)
  rw [hfinal, hsorted.eq_of_mem_iff h.2.2 fun value => (hperm.trans h.2.1.symm).mem_iff]

end Collect

end HelixDb.Lib
