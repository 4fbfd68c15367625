/-
  HelixDb.Lib.StableSort

  **STABLE SORTING, ONE ELEMENT AT A TIME.**

  A comparison here may call distinct elements equal.  A stable sort keeps such
  elements in the order of the input, so a sort of `l ++ [a]` is the sort of `l`
  with `a` put behind its equals.  What a bounded buffer retains is a front part
  of that.

    • `stableSort_concat` — one more element;
    • `foldl_pushBounded` — a buffer of `k` holds the first `k` of the sort;
    • `foldl_pushNew` — the same for one representative of every class, the
      one that came first.
-/
import Mathlib

namespace HelixDb.Lib

open List
open Std.TransCmp (isLE_trans congr_left lt_trans lt_of_lt_of_isLE congr_right)
open Std.OrientedCmp (isLE_antisymm lt_of_not_isLE not_lt_of_isLE not_isLE_of_lt)

variable {α : Type} (c : α → α → Ordering)

/-! ## §1. Sorting. -/

/-- Equal elements keep their order. -/
def stableSort (l : List α) : List α := l.mergeSort fun a b => (c a b).isLE

/-- Behind everything that is not greater. -/
def insertAfter (a : α) (l : List α) : List α := l.orderedInsert (fun x y => c x y = .lt) a

theorem insertAfter_cons (a x : α) (l : List α) :
    insertAfter c a (x :: l) = if c a x = .lt then a :: x :: l else x :: insertAfter c a l :=
  orderedInsert_cons ..

theorem length_insertAfter (a : α) (l : List α) : (insertAfter c a l).length = l.length + 1 :=
  orderedInsert_length ..

theorem mem_insertAfter {a r : α} {l : List α} : r ∈ insertAfter c a l ↔ r = a ∨ r ∈ l := by
  rw [insertAfter, (perm_orderedInsert _ a l).mem_iff, mem_cons]

theorem stableSort_perm (l : List α) : (stableSort c l).Perm l := mergeSort_perm l _

/-- Sorting by what a function reads. -/
theorem map_stableSort {β : Type} (f : β → α) (l : List β) :
    (stableSort (fun a b => c (f a) (f b)) l).map f = stableSort c (l.map f) :=
  map_mergeSort fun _ _ _ _ => rfl

theorem take_insertAfter (k : Nat) (a : α) (l : List α) :
    (insertAfter c a l).take k = (insertAfter c a (l.take k)).take k := by
  induction l generalizing k with
  | nil => rw [take_nil]
  | cons x l ih =>
    cases k with
    | zero => rfl
    | succ k =>
      rw [take_succ_cons, insertAfter_cons, insertAfter_cons]
      split_ifs with hlt
      · rw [take_succ_cons, take_succ_cons]
        cases k with
        | zero => rfl
        | succ k => rw [take_succ_cons, take_succ_cons, take_take, min_eq_left
            (Nat.le_succ k)]
      · rw [take_succ_cons, take_succ_cons, ih]

theorem insertAfter_of_le {a : α} {l : List α} (h : ∀ b ∈ l, c a b ≠ .lt) :
    insertAfter c a l = l ++ [a] := by
  induction l with
  | nil => rfl
  | cons x l ih =>
    rw [forall_mem_cons] at h
    rw [insertAfter_cons, if_neg h.1, ih h.2, cons_append]

theorem insertAfter_concat_of_lt {a w : α} (l : List α) (h : c a w = .lt) :
    insertAfter c a (l ++ [w]) = insertAfter c a l ++ [w] := by
  induction l with
  | nil => simp [insertAfter, h]
  | cons x l ih =>
    rw [cons_append, insertAfter_cons, insertAfter_cons]
    split_ifs
    · rfl
    · rw [ih, cons_append]

theorem stableSort_of_sorted {l : List α} (h : l.Pairwise fun a b => (c a b).isLE = true) :
    stableSort c l = l :=
  mergeSort_of_pairwise h

section Trans

variable [Std.TransCmp c]

theorem isLE_total (a b : α) : ((c a b).isLE || (c b a).isLE) = true := by
  have hswap : c b a = (c a b).swap := Std.OrientedCmp.eq_swap
  rw [hswap]
  cases c a b <;> rfl

theorem ne_lt_iff_isLE (a b : α) : c a b ≠ .lt ↔ (c b a).isLE = true :=
  ⟨fun h => by_contra fun hnot => h (lt_of_not_isLE hnot), not_lt_of_isLE⟩

theorem sorted_stableSort (l : List α) : (stableSort c l).Pairwise fun a b => (c a b).isLE = true :=
  pairwise_mergeSort (fun _ _ _ => isLE_trans) (isLE_total c) l

/-- Two sorted arrangements of the same elements differ only among equals, so they
agree on whatever equals share. -/
theorem map_eq_of_sorted_perm {β : Type} {f : α → β} {l m : List α} (hperm : l.Perm m)
    (hl : l.Pairwise fun a b => (c a b).isLE = true) (hm : m.Pairwise fun a b => (c a b).isLE = true)
    (hf : ∀ a ∈ l, ∀ b ∈ m, c a b = .eq → f a = f b) : l.map f = m.map f := by
  -- An element is seen as its comparison: there equals are the same.
  have hclasses : l.map c = m.map c := by
    have hsame : ∀ {x y : α}, c x = c y → c x y = .eq := by
      intro x y h
      rw [h]
      exact Std.ReflCmp.compare_self
    have hsorted : ∀ {l : List α}, (l.Pairwise fun a b => (c a b).isLE = true) →
        (l.map c).Pairwise fun p q => ∃ x y, p = c x ∧ q = c y ∧ (c x y).isLE = true :=
      fun h => pairwise_map.mpr (h.imp fun hxy => ⟨_, _, rfl, rfl, hxy⟩)
    refine List.Perm.eq_of_pairwise ?_ (hsorted hl) (hsorted hm) (hperm.map c)
    rintro _ _ - - ⟨x, y, rfl, rfl, hxy⟩ ⟨y', x', hy, hx, hyx⟩
    funext z
    have hle : (c y x).isLE = true := by
      have h : (c y x').isLE = true := isLE_trans (by rw [hsame hy]; rfl) hyx
      exact isLE_trans h (by rw [hsame hx.symm]; rfl)
    exact congr_left (isLE_antisymm hxy hle)
  refine ext_getElem (by simpa using hperm.length_eq) ?_
  intro i hi hi'
  rw [getElem_map, getElem_map]
  rw [length_map] at hi hi'
  refine hf _ (getElem_mem hi) _ (getElem_mem hi') ?_
  have hclass : (l.map c)[i]? = (m.map c)[i]? := by rw [hclasses]
  rw [getElem?_map, getElem?_map, getElem?_eq_getElem hi,
    getElem?_eq_getElem hi'] at hclass
  have hclass : c l[i] = c m[i] := Option.some.inj hclass
  rw [hclass]
  exact Std.ReflCmp.compare_self

/-- An element in front of the input goes before its equals. -/
theorem stableSort_cons (a : α) (l : List α) :
    stableSort c (a :: l) = (stableSort c l).orderedInsert (fun x y => (c x y).isLE = true) a := by
  obtain ⟨front, back, hcons, hsort, hfront⟩ :=
    mergeSort_cons (fun _ _ _ => isLE_trans) (isLE_total c) a l
  have hsorted := sorted_stableSort c (a :: l)
  unfold stableSort at hsorted ⊢
  rw [hcons] at hsorted ⊢
  rw [hsort, orderedInsert_eq_take_drop]
  have hstop : ∀ b ∈ front, decide (¬ (c a b).isLE = true) = true := by
    intro b hb
    simpa using hfront b hb
  rw [takeWhile_append_of_pos hstop, dropWhile_append_of_pos hstop]
  cases back with
  | nil => simp
  | cons b back =>
    have hb : (c a b).isLE = true :=
      (pairwise_cons.mp (pairwise_append.mp hsorted).2.1).1 b mem_cons_self
    simp only [takeWhile_cons, dropWhile_cons, hb, not_true_eq_false, decide_false,
      Bool.false_eq_true, if_false, append_nil]

/-- Elements put in front of and behind their equals do not disturb each other. -/
theorem insertAfter_orderedInsert (a b : α) (l : List α) :
    (insertAfter c a l).orderedInsert (fun x y => (c x y).isLE = true) b =
      insertAfter c a (l.orderedInsert (fun x y => (c x y).isLE = true) b) := by
  have hswap : ¬ (c b a).isLE = true ↔ c a b = .lt := by
    rw [← ne_lt_iff_isLE, not_not]
  induction l with
  | nil =>
    by_cases hlt : c a b = .lt
    · simp [insertAfter, hlt, hswap.mpr hlt]
    · simp [insertAfter, hlt, not_not.mp (mt hswap.mp hlt)]
  | cons x l ih =>
    by_cases hax : c a x = .lt
    · by_cases hbx : (c b x).isLE = true
      · by_cases hlt : c a b = .lt
        · simp [insertAfter_cons, hax, hbx, hlt, hswap.mpr hlt]
        · simp [insertAfter_cons, hax, hbx, hlt, not_not.mp (mt hswap.mp hlt)]
      · have hxb : c x b = .lt := by
          rwa [← ne_lt_iff_isLE, not_not] at hbx
        have hab : c a b = .lt := lt_trans hax hxb
        simp [insertAfter_cons, hax, hbx, hswap.mpr hab]
    · have hxa : (c x a).isLE = true := (ne_lt_iff_isLE c a x).mp hax
      by_cases hbx : (c b x).isLE = true
      · have hba : (c b a).isLE = true := isLE_trans hbx hxa
        have hab : c a b ≠ .lt := (ne_lt_iff_isLE c a b).mpr hba
        simp [insertAfter_cons, hax, hbx, hab]
      · simp [insertAfter_cons, hax, hbx, ih]

/-- **One more element** goes behind its equals. -/
theorem stableSort_concat (l : List α) (a : α) :
    stableSort c (l ++ [a]) = insertAfter c a (stableSort c l) := by
  induction l with
  | nil => simp [stableSort, insertAfter]
  | cons b l ih =>
    rw [cons_append, stableSort_cons, stableSort_cons, ih, insertAfter_orderedInsert]

/-! ## §2. A bounded buffer. -/

/-- A buffer of `k` in ascending order: what is not less than a full buffer's last
element is not added, and one that is added to a full buffer displaces it. -/
def pushBounded (k : Nat) (kept : List α) (a : α) : List α :=
  if k = 0 ∨ (kept.getLast?.any fun worst => decide (k ≤ kept.length) && c a worst != .lt) then kept
  else insertAfter c a (if kept.length = k then kept.dropLast else kept)

theorem pushBounded_eq (k : Nat) (a : α) {kept : List α}
    (hsorted : kept.Pairwise fun x y => (c x y).isLE = true) (hlength : kept.length ≤ k) :
    pushBounded c k kept a = (insertAfter c a kept).take k := by
  unfold pushBounded
  rcases Nat.lt_or_ge kept.length k with hroom | hfull
  · have hnone : ¬ (k = 0 ∨
        (kept.getLast?.any fun worst => decide (k ≤ kept.length) && c a worst != .lt) = true) := by
      simp [Nat.not_le.mpr hroom]
      omega
    rw [if_neg hnone, if_neg hroom.ne, take_of_length_le]
    rwa [length_insertAfter]
  · obtain rfl : kept.length = k := le_antisymm hlength hfull
    cases kept using List.reverseRecOn with
    | nil => simp
    | append_singleton kept w =>
      by_cases hlt : c a w = .lt
      · rw [if_neg (by simp [hlt]), if_pos rfl, dropLast_concat,
          insertAfter_concat_of_lt c kept hlt, length_append, length_singleton,
          ← length_insertAfter c a kept, take_left]
      · have hle : ∀ b ∈ kept ++ [w], c a b ≠ .lt := by
          intro b hb hab
          rcases mem_append.mp hb with hb | hb
          · have hbw := (pairwise_append.mp hsorted).2.2 b hb w mem_cons_self
            exact hlt (lt_of_lt_of_isLE hab hbw)
          · exact hlt (mem_singleton.mp hb ▸ hab)
        rw [if_pos (by simp [hlt]), insertAfter_of_le c hle, take_left]

/-- **A bounded buffer** holds the first `k` of the sort. -/
theorem foldl_pushBounded (k : Nat) (l : List α) :
    l.foldl (pushBounded c k) [] = (stableSort c l).take k := by
  induction l using List.reverseRecOn with
  | nil => simp [stableSort]
  | append_singleton l a ih =>
    rw [foldl_append, ih, stableSort_concat,
      take_insertAfter]
    exact pushBounded_eq c k a ((sorted_stableSort c l).sublist (take_sublist _ _))
      (length_take_le _ _)

/-- A tie-break that agrees with the order of the input changes nothing. -/
theorem stableSort_then {t : α → α → Ordering} [Std.TransCmp t] {l : List α}
    (h : l.Pairwise fun a b => t b a ≠ .lt) : stableSort (compareLex c t) l = stableSort c l := by
  induction l using List.reverseRecOn with
  | nil => simp [stableSort]
  | append_singleton l a ih =>
    rw [pairwise_append] at h
    rw [stableSort_concat, stableSort_concat, ih h.1]
    have hties : ∀ b ∈ stableSort c l, t a b ≠ .lt := fun b hb =>
      h.2.2 b ((stableSort_perm c l).mem_iff.mp hb) a mem_cons_self
    generalize stableSort c l = sorted at hties
    induction sorted with
    | nil => rfl
    | cons x sorted ih =>
      rw [forall_mem_cons] at hties
      have hsame : compareLex c t a x = .lt ↔ c a x = .lt := by
        unfold compareLex
        cases hc : c a x <;> simp [hties.1]
      rw [insertAfter_cons, insertAfter_cons, ih hties.2]
      simp [hsame]

end Trans

/-! ## §3. One representative of every class. -/

/-- `dedup_by` after an element that was kept. -/
def dedupFrom (last : α) : List α → List α
  | [] => []
  | b :: l => if c b last = .eq then dedupFrom last l else b :: dedupFrom b l

/-- `dedup_by`: the first of every run of equals. -/
def dedupRuns : List α → List α
  | [] => []
  | a :: l => a :: dedupFrom c a l

/-- A set: an element that has an equal is not added. -/
def insertNew (a : α) (l : List α) : List α :=
  if l.any (fun b => c a b == .eq) then l else insertAfter c a l

theorem cons_dedupFrom (l : List α) : ∀ last : α,
    last :: dedupFrom c last l = l.destutter' (fun a b => c b a ≠ .eq) last := by
  induction l with
  | nil => exact fun _ => rfl
  | cons b l ih =>
    intro last
    rw [dedupFrom, destutter'_cons, ← ih, ← ih]
    by_cases hsame : c b last = .eq
    · rw [if_pos hsame, if_neg (not_not.mpr hsame)]
    · rw [if_neg hsame, if_pos hsame]

theorem dedupRuns_eq (l : List α) : dedupRuns c l = l.destutter fun a b => c b a ≠ .eq := by
  cases l with
  | nil => rfl
  | cons a l => exact cons_dedupFrom c l a

theorem dedupRuns_sublist (l : List α) : (dedupRuns c l).Sublist l := by
  rw [dedupRuns_eq]
  exact destutter_sublist _ l

/-- Comparing by what a function reads. -/
theorem map_dedupRuns {β : Type} (f : β → α) (l : List β) :
    (dedupRuns (fun a b => c (f a) (f b)) l).map f = dedupRuns c (l.map f) := by
  rw [dedupRuns_eq, dedupRuns_eq]
  exact map_destutter fun _ _ _ _ => Iff.rfl

theorem insertNew_cons {a x : α} (l : List α) (hlt : c a x ≠ .lt) : insertNew c a (x :: l) =
    if c a x = .eq then x :: l else x :: insertNew c a l := by
  unfold insertNew
  rw [any_cons, insertAfter_cons]
  by_cases heq : c a x = .eq
  · simp [heq]
  · simp only [Bool.false_or, beq_eq_false_iff_ne.mpr heq]
    split_ifs <;> rfl

section Trans

variable [Std.TransCmp c]

/-- An element less than all makes a class of its own. -/
theorem insertNew_of_lt {a x : α} {l : List α} (hlt : c a x = .lt)
    (hle : ∀ b ∈ l, (c x b).isLE = true) :
    insertNew c a (x :: dedupFrom c x l) = a :: x :: dedupFrom c x l := by
  have hbelow : ∀ b ∈ x :: dedupFrom c x l, c a b = .lt := by
    intro b hb
    rcases mem_cons.mp ((dedupRuns_sublist c (x :: l)).subset hb) with rfl | hb
    · exact hlt
    · exact lt_of_lt_of_isLE hlt (hle b hb)
  have hnone : (x :: dedupFrom c x l).any (fun b => c a b == .eq) = false :=
    any_eq_false.mpr fun b hb => by rw [hbelow b hb]; decide
  rw [insertNew, hnone, if_neg Bool.false_ne_true, insertAfter_cons, if_pos hlt]

/-- One more element, after an element that was kept. -/
theorem dedupFrom_insertAfter (a : α) (l : List α) :
    ∀ last : α, l.Pairwise (fun x y => (c x y).isLE = true) →
      (∀ b ∈ l, (c last b).isLE = true) → (c last a).isLE = true →
      dedupFrom c last (insertAfter c a l) =
        if c a last = .eq then dedupFrom c last l else insertNew c a (dedupFrom c last l) := by
  induction l with
  | nil =>
    intro last _ _ _
    show dedupFrom c last [a] = _
    simp [dedupFrom, insertNew, insertAfter]
  | cons x l ih =>
    intro last hsorted hlast hle
    rw [pairwise_cons] at hsorted
    rw [forall_mem_cons] at hlast
    rw [insertAfter_cons]
    split_ifs with hlt hsame hsame
    · rw [dedupFrom, if_pos hsame]
    · -- the new element starts a class of its own before `x`
      have hlx : c last x = .lt := Std.TransCmp.lt_of_isLE_of_lt hle hlt
      have hxlast : c x last ≠ .eq := by
        rw [ne_eq, Std.OrientedCmp.eq_comm, hlx]
        decide
      have hxa : c x a ≠ .eq := by
        rw [ne_eq, Std.OrientedCmp.eq_comm, hlt]
        decide
      rw [dedupFrom, if_neg hsame, dedupFrom, if_neg hxa, dedupFrom, if_neg hxlast,
        insertNew_of_lt c hlt hsorted.1]
    · have hax : (c x a).isLE = true := (ne_lt_iff_isLE c a x).mp hlt
      have hxlast : c x last = .eq := by
        have hxlast : (c x last).isLE = true :=
          isLE_trans hax (by rw [hsame]; rfl)
        exact isLE_antisymm hxlast hlast.1
      rw [dedupFrom, if_pos hxlast, ih last hsorted.2 hlast.2 hle, if_pos hsame, dedupFrom,
        if_pos hxlast]
    · have hax : (c x a).isLE = true := (ne_lt_iff_isLE c a x).mp hlt
      by_cases hxlast : c x last = .eq
      · rw [dedupFrom, if_pos hxlast, ih last hsorted.2 hlast.2 hle, if_neg hsame, dedupFrom,
          if_pos hxlast]
      · rw [dedupFrom, if_neg hxlast, ih x hsorted.2 hsorted.1 hax, dedupFrom, if_neg hxlast,
          insertNew_cons c _ hlt]
        split_ifs <;> rfl

/-- One more element makes a class of its own, or joins one. -/
theorem dedupRuns_insertAfter (a : α) {l : List α}
    (hsorted : l.Pairwise fun x y => (c x y).isLE = true) :
    dedupRuns c (insertAfter c a l) = insertNew c a (dedupRuns c l) := by
  cases l with
  | nil => rfl
  | cons x l =>
    rw [pairwise_cons] at hsorted
    rw [insertAfter_cons]
    split_ifs with hlt
    · have hxa : c x a ≠ .eq := by
        rw [ne_eq, Std.OrientedCmp.eq_comm, hlt]
        decide
      rw [dedupRuns, dedupRuns, dedupFrom, if_neg hxa, insertNew_of_lt c hlt hsorted.1]
    · have hax : (c x a).isLE = true := (ne_lt_iff_isLE c a x).mp hlt
      rw [dedupRuns, dedupFrom_insertAfter c a l x hsorted.2 hsorted.1 hax, dedupRuns,
        insertNew_cons c _ hlt]
      split_ifs <;> rfl

/-- The representatives are in strict order. -/
theorem sorted_dedupRuns {l : List α} (hsorted : l.Pairwise fun x y => (c x y).isLE = true) :
    (dedupRuns c l).Pairwise fun x y => c x y = .lt := by
  have htrans : Trans (fun x y => c x y = .lt) (fun x y => c x y = .lt) fun x y => c x y = .lt :=
    ⟨lt_trans⟩
  have hruns := hsorted.sublist (dedupRuns_sublist c l)
  have hchain := isChain_destutter (fun a b => c b a ≠ .eq) l
  rw [← dedupRuns_eq, isChain_iff_getElem] at hchain
  rw [← isChain_iff_pairwise, isChain_iff_getElem]
  intro i hi
  refine lt_of_not_isLE fun hle => hchain i hi ?_
  exact isLE_antisymm hle (pairwise_iff_getElem.mp hruns i (i + 1) _ hi (Nat.lt_succ_self i))

/-- A class beyond the bound is as good as none: it is not added either. -/
theorem take_insertNew (k : Nat) (a : α) {l : List α} (hsorted : l.Pairwise fun x y => c x y = .lt) :
    (insertNew c a l).take k = (insertNew c a (l.take k)).take k := by
  unfold insertNew
  by_cases hkept : (l.take k).any (fun b => c a b == .eq) = true
  · have hany : l.any (fun b => c a b == .eq) = true := by
      rw [any_eq_true] at hkept ⊢
      obtain ⟨b, hb, heq⟩ := hkept
      exact ⟨b, mem_of_mem_take hb, heq⟩
    rw [if_pos hany, if_pos hkept, take_take, min_self]
  · rw [if_neg hkept]
    by_cases hany : l.any (fun b => c a b == .eq) = true
    · -- the equal element is beyond the first `k`, which are all less
      rw [if_pos hany]
      obtain ⟨b, hb, heq⟩ := any_eq_true.mp hany
      rw [beq_iff_eq] at heq
      have hdrop : b ∈ l.drop k := by
        rw [← take_append_drop k l, mem_append] at hb
        refine hb.resolve_left fun htake => hkept ?_
        exact any_eq_true.mpr ⟨b, htake, beq_iff_eq.mpr heq⟩
      have hless : ∀ x ∈ l.take k, c a x ≠ .lt := by
        intro x hx hlt
        have hxb : c x b = .lt := by
          rw [← take_append_drop k l] at hsorted
          exact (pairwise_append.mp hsorted).2.2 x hx b hdrop
        have hab := lt_trans hlt hxb
        simp [heq] at hab
      have hlength : (l.take k).length = k := by
        have hpos := length_pos_of_mem hdrop
        rw [length_drop] at hpos
        exact length_take_of_le (by omega)
      rw [insertAfter_of_le c hless, take_append_of_le_length hlength.ge, take_take,
        min_self]
    · rw [if_neg hany, take_insertAfter]

/-- A bounded set, as a buffer that an equal element keeps out. -/
def pushNew (k : Nat) (kept : List α) (a : α) : List α :=
  if kept.any (fun b => c a b == .eq) then kept else pushBounded c k kept a

/-- **A bounded set** holds the first `k` classes, each by the element that came
first. -/
theorem foldl_pushNew (k : Nat) (l : List α) :
    l.foldl (pushNew c k) [] = (dedupRuns c (stableSort c l)).take k := by
  induction l using List.reverseRecOn with
  | nil => simp [stableSort, dedupRuns]
  | append_singleton l a ih =>
    have hstrict := sorted_dedupRuns c (sorted_stableSort c l)
    rw [foldl_append, foldl_cons, foldl_nil, ih, stableSort_concat,
      dedupRuns_insertAfter c a (sorted_stableSort c l), take_insertNew c k a hstrict]
    unfold pushNew insertNew
    split_ifs with hany
    · rw [take_take, min_self]
    · refine pushBounded_eq c k a ?_ (length_take_le _ _)
      refine (hstrict.sublist (take_sublist _ _)).imp ?_
      intro x y hxy
      rw [hxy]
      rfl

/-- **The representatives** are the elements that are the first of their class. -/
theorem mem_dedupRuns_stableSort {l : List α} : ∀ {r : α},
    r ∈ dedupRuns c (stableSort c l) ↔ l.find? (fun x => c x r == .eq) = some r := by
  induction l using List.reverseRecOn with
  | nil => simp [stableSort, dedupRuns]
  | append_singleton l a ih =>
    intro r
    have hsubset : ∀ b ∈ dedupRuns c (stableSort c l), b ∈ l := fun b hb =>
      (stableSort_perm c l).mem_iff.mp ((dedupRuns_sublist c _).subset hb)
    rw [stableSort_concat, dedupRuns_insertAfter c a (sorted_stableSort c l), find?_append]
    unfold insertNew
    cases hfind : l.find? (fun x => c x r == .eq) with
    | none =>
      -- no element before `a` is in the class of `r`
      have hout : r ∉ dedupRuns c (stableSort c l) := by
        rw [ih, hfind]
        exact fun h => nomatch h
      rw [find?_eq_none] at hfind
      have hnew : r = a → ¬ (dedupRuns c (stableSort c l)).any (fun b => c a b == .eq) = true := by
        rintro rfl hany
        obtain ⟨b, hb, heq⟩ := any_eq_true.mp hany
        rw [beq_iff_eq, Std.OrientedCmp.eq_comm] at heq
        exact hfind b (hsubset b hb) (beq_iff_eq.mpr heq)
      show _ ↔ [a].find? (fun x => c x r == .eq) = some r
      rw [find?_singleton]
      split_ifs with hany hsame hsame
      · simp only [hout, false_iff, Option.some.injEq]
        exact fun heq => hnew heq.symm hany
      · simp [hout]
      · rw [mem_insertAfter]
        simp only [hout, or_false, Option.some.injEq]
        exact eq_comm
      · rw [mem_insertAfter]
        simp only [hout, or_false, iff_false]
        rintro rfl
        exact hsame (beq_iff_eq.mpr Std.ReflCmp.compare_self)
    | some y =>
      have hy : c y r = .eq :=
        beq_iff_eq.mp (find?_some (p := fun x => c x r == .eq) hfind)
      have hfirst : l.find? (fun x => c x y == .eq) = some y := by
        rw [← hfind]
        congr 1
        funext x
        rw [congr_right hy]
      have hrep := ih.mpr hfirst
      show _ ↔ some y = some r
      rw [← hfind, ← ih]
      split_ifs with hany
      · rfl
      · rw [mem_insertAfter, or_iff_right]
        rintro rfl
        refine hany (any_eq_true.mpr ⟨y, hrep, beq_iff_eq.mpr ?_⟩)
        exact Std.OrientedCmp.eq_symm hy

end Trans

end HelixDb.Lib
