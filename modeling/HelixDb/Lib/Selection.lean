/-
  HelixDb.Lib.Selection

  **SELECTING WITHIN A BUDGET**: the items taken one after another while their
  weights fit, and the first and last occurrences of a key.

    • `fitting_longest` — **no longer initial part fits**,
    • `fitting_next` — the first item left out does not fit,
    • `firstKeys_concat`, `lastOf_concat` — how the two move with one more item.
-/
import Mathlib

namespace HelixDb.Lib

open List

/-! ## §1. The longest initial part within a budget. -/

section Budget

variable {α : Type} (weight : α → Nat) (budget : Nat)

/-- Items are taken while they fit; `charged` is what was taken before them. -/
def fitting : Nat → List α → List α
  | _, [] => []
  | charged, x :: xs =>
    if charged + weight x ≤ budget then x :: fitting (charged + weight x) xs else []

theorem fitting_starts (xs : List α) : ∀ charged, fitting weight budget charged xs <+: xs := by
  induction xs with
  | nil => exact fun _ => prefix_refl _
  | cons x xs ih =>
    intro charged
    unfold fitting
    split_ifs
    · exact (prefix_cons_inj x).mpr (ih _)
    · exact nil_prefix

theorem fitting_sum_le (xs : List α) : ∀ {charged}, charged ≤ budget →
    charged + ((fitting weight budget charged xs).map weight).sum ≤ budget := by
  induction xs with
  | nil => exact fun h => h
  | cons x xs ih =>
    intro charged h
    unfold fitting
    split_ifs with hfits
    · rw [map_cons, sum_cons, ← Nat.add_assoc]
      exact ih hfits
    · exact h

/-- **Every initial part that fits is part of the selection.** -/
theorem fitting_longest (xs : List α) : ∀ {charged ys}, ys <+: xs →
    charged + (ys.map weight).sum ≤ budget → ys <+: fitting weight budget charged xs := by
  induction xs with
  | nil => exact fun h _ => h
  | cons x xs ih =>
    intro charged ys hys hsum
    cases ys with
    | nil => exact nil_prefix
    | cons y ys =>
      obtain ⟨rfl, htail⟩ := cons_prefix_cons.mp hys
      rw [map_cons, sum_cons, ← Nat.add_assoc] at hsum
      unfold fitting
      rw [if_pos (by omega)]
      exact (prefix_cons_inj y).mpr (ih htail hsum)

/-- The first item left out does not fit. -/
theorem fitting_next {xs rest : List α} {x : α} {charged : Nat}
    (h : xs = fitting weight budget charged xs ++ x :: rest) :
    budget < charged + ((fitting weight budget charged xs).map weight).sum + weight x := by
  by_contra hle
  have hlonger : fitting weight budget charged xs ++ [x] <+: fitting weight budget charged xs := by
    refine fitting_longest weight budget xs ⟨rest, ?_⟩ ?_
    · rw [append_assoc]
      exact h.symm
    · rw [map_append, sum_append, map_singleton, sum_singleton]
      omega
  have hlen := hlonger.length_le
  rw [length_append, length_singleton] at hlen
  omega

/-- Items past the selection may be dropped beforehand. -/
theorem fitting_take (xs : List α) : ∀ {charged k},
    (fitting weight budget charged xs).length ≤ k →
    fitting weight budget charged (xs.take k) = fitting weight budget charged xs := by
  induction xs with
  | nil => exact fun _ => congrArg _ take_nil
  | cons x xs ih =>
    intro charged k hk
    cases k with
    | zero =>
      exact (length_eq_zero_iff.mp (Nat.le_zero.mp hk)).symm
    | succ k =>
      rw [take_succ_cons]
      unfold fitting at hk ⊢
      split_ifs with hfits
      · rw [if_pos hfits, length_cons] at hk
        rw [ih (by omega)]
      · rfl

end Budget

/-! ## §2. First and last occurrences of a key. -/

section Keys

variable {α κ : Type} [DecidableEq κ] (key : α → κ)

/-- The keys, in the order of their first items. -/
def firstKeys (xs : List α) : List κ := (xs.map key).eraseDups

/-- The last item with a key. -/
def lastOf (xs : List α) (k : κ) : Option α := (xs.filter fun x => key x = k).getLast?

/-- The last item of each key, in the order of the keys' first items. -/
def lastItems (xs : List α) : List α := (firstKeys key xs).filterMap (lastOf key xs)

variable {key} {xs : List α}

theorem mem_firstKeys {k : κ} : k ∈ firstKeys key xs ↔ ∃ x ∈ xs, key x = k := by
  rw [firstKeys, mem_eraseDups, mem_map]

theorem firstKeys_concat (xs : List α) (x : α) :
    firstKeys key (xs ++ [x]) =
      if key x ∈ firstKeys key xs then firstKeys key xs else firstKeys key xs ++ [key x] := by
  have hiff : key x ∈ firstKeys key xs ↔ key x ∈ xs.map key := mem_eraseDups
  rw [if_congr hiff rfl rfl]
  unfold firstKeys
  rw [map_append, map_singleton, eraseDups_append]
  by_cases h : key x ∈ xs.map key
  · rw [List.removeAll, filter_singleton]
    simp only [h, elem_eq_mem]
    exact append_nil _
  · rw [List.removeAll, filter_singleton]
    simp only [h, elem_eq_mem]
    rfl

theorem nodup_firstKeys (xs : List α) : (firstKeys key xs).Nodup := by
  induction xs using List.reverseRecOn with
  | nil => exact nodup_nil
  | append_singleton xs x ih =>
    rw [firstKeys_concat]
    split_ifs with h
    · exact ih
    · exact nodup_append.mpr ⟨ih, nodup_singleton _, fun a ha b hb hab =>
        h (mem_singleton.mp hb ▸ hab ▸ ha)⟩

theorem lastOf_concat (xs : List α) (x : α) (k : κ) :
    lastOf key (xs ++ [x]) k = if key x = k then some x else lastOf key xs k := by
  unfold lastOf
  rw [filter_append, filter_singleton]
  by_cases h : key x = k
  · simp only [h]
    exact getLast?_concat
  · simp only [h]
    exact congrArg List.getLast? (append_nil _)

theorem lastOf_eq_some {k : κ} {x : α} (h : lastOf key xs k = some x) : x ∈ xs ∧ key x = k := by
  obtain ⟨hmem, hkey⟩ := mem_filter.mp (mem_of_getLast? h)
  exact ⟨hmem, of_decide_eq_true hkey⟩

theorem exists_lastOf {k : κ} (h : k ∈ firstKeys key xs) : ∃ x, lastOf key xs k = some x := by
  obtain ⟨x, hx, hk⟩ := mem_firstKeys.mp h
  have hne : xs.filter (fun x => key x = k) ≠ [] :=
    ne_nil_of_mem (mem_filter.mpr ⟨hx, decide_eq_true hk⟩)
  exact ⟨_, getLast?_eq_some_getLast hne⟩

theorem map_key_lastItems (xs : List α) : (lastItems key xs).map key = firstKeys key xs := by
  have hsome : ∀ k ∈ firstKeys key xs, (lastOf key xs k).map key = some k := by
    intro k hk
    obtain ⟨x, hx⟩ := exists_lastOf hk
    rw [hx, Option.map_some, (lastOf_eq_some hx).2]
  rw [lastItems, map_filterMap, filterMap_congr hsome, filterMap_some]

theorem mem_lastItems {x : α} (h : x ∈ lastItems key xs) :
    x ∈ xs ∧ lastOf key xs (key x) = some x := by
  obtain ⟨k, -, hk⟩ := mem_filterMap.mp h
  obtain ⟨hx, rfl⟩ := lastOf_eq_some hk
  exact ⟨hx, hk⟩

/-- Picking one item of each key adds no weight. -/
theorem sum_lastItems_le (weight : α → Nat) (xs : List α) :
    ((lastItems key xs).map weight).sum ≤ (xs.map weight).sum := by
  have hnodup : (lastItems key xs).Nodup :=
    List.Nodup.of_map key (by rw [map_key_lastItems]; exact nodup_firstKeys xs)
  obtain ⟨part, hperm, hsub⟩ :=
    subperm_of_subset hnodup fun x hx => (mem_lastItems hx).1
  rw [← (hperm.map weight).sum_eq]
  exact (hsub.map weight).sum_le_sum fun _ _ => Nat.zero_le _

end Keys

end HelixDb.Lib
