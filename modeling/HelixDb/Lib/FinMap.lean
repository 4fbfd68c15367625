/-
  HelixDb.Lib.FinMap

  **EXECUTABLE FINITE MAPS**: association lists without duplicate keys
  (Mathlib's `AList`), read through `lookup`.

  The two update laws are stated as one `if` on the key, which is the form a
  case analysis wants.  The order of the entries carries no meaning.

    • `lookup_insert_eq`, `lookup_erase_eq` — the update laws;
    • `total_insert`, `total_erase` — how a total over the entries moves
      with one key.
-/
import Mathlib

namespace HelixDb.Lib

/-- A finite map from `K` to `V`. -/
abbrev FinMap (K V : Type) := AList fun _ : K => V

namespace FinMap

variable {K V : Type} [DecidableEq K]

theorem lookup_insert_eq (m : FinMap K V) (k k' : K) (v : V) :
    (m.insert k v).lookup k' = if k' = k then some v else m.lookup k' := by
  split_ifs with h
  · rw [h]
    exact AList.lookup_insert m
  · exact AList.lookup_insert_ne h

theorem lookup_erase_eq (m : FinMap K V) (k k' : K) :
    (m.erase k).lookup k' = if k' = k then none else m.lookup k' := by
  split_ifs with h
  · rw [h]
    exact AList.lookup_erase k m
  · exact AList.lookup_erase_ne h

/-- A key that is removed or updated. -/
theorem lookup_ite (c : Prop) [Decidable c] (m : FinMap K V) (k k' : K) (v : V) :
    (if c then m.erase k else m.insert k v).lookup k' =
      if k' = k then if c then none else some v else m.lookup k' := by
  split_ifs <;> simp_all [lookup_insert_eq, lookup_erase_eq]

theorem mem_keys_iff (m : FinMap K V) (k : K) : k ∈ m.keys ↔ ∃ v, m.lookup k = some v := by
  rw [← Option.isSome_iff_exists, AList.lookup_isSome]
  exact Iff.rfl

theorem mem_keys_insert (m : FinMap K V) (k k' : K) (v : V) :
    k' ∈ (m.insert k v).keys ↔ k' = k ∨ k' ∈ m.keys := AList.mem_insert m

/-- The total of `f` over the entries. -/
def total (m : FinMap K V) (f : K → V → Nat) : Nat :=
  (m.entries.map fun entry => f entry.1 entry.2).sum

/-- What the entry under `k` adds to the total. -/
def contribution (m : FinMap K V) (f : K → V → Nat) (k : K) : Nat :=
  match m.lookup k with
  | some v => f k v
  | none => 0

omit [DecidableEq K] in
@[simp] theorem total_empty (f : K → V → Nat) : total (∅ : FinMap K V) f = 0 := rfl

/-- The total splits into one key and the rest. -/
theorem total_erase (m : FinMap K V) (f : K → V → Nat) (k : K) :
    total m f = contribution m f k + total (m.erase k) f := by
  by_cases hk : k ∈ m
  · obtain ⟨v, front, back, -, hentries, herased⟩ := List.exists_of_kerase hk
    have hv : m.lookup k = some v := by
      rw [← Option.mem_def, AList.mem_lookup_iff, hentries]
      simp
    have hrest : (m.erase k).entries = front ++ back := herased
    rw [contribution, hv, total, total, hentries, hrest]
    simp only [List.map_append, List.map_cons, List.sum_append, List.sum_cons]
    omega
  · have hrest : (m.erase k).entries = m.entries := List.kerase_of_notMem_keys hk
    rw [contribution, AList.lookup_eq_none.mpr hk, total, total, hrest, Nat.zero_add]

theorem total_insert (m : FinMap K V) (f : K → V → Nat) (k : K) (v : V) :
    total (m.insert k v) f = f k v + total (m.erase k) f := by
  have hentries : (m.insert k v).entries = ⟨k, v⟩ :: (m.erase k).entries := AList.entries_insert
  rw [total, total, hentries, List.map_cons, List.sum_cons]

end FinMap

end HelixDb.Lib
