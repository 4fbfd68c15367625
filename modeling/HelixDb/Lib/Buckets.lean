/-
  HelixDb.Lib.Buckets

  **A TABLE OF BUCKETS** keyed up to a comparison.

  Pushing a value adds it to the first bucket whose key compares equal, or opens
  a new one.  If the comparison is a total order, a bucket holds exactly the
  values pushed under equal keys, in the order they came.

    • `bucket_push` — one push;
    • `bucket_foldl_push` — a table filled from a list.
-/
import Mathlib

namespace HelixDb.Lib

variable {κ ν : Type} (c : κ → κ → Ordering)

/-- The value goes to the bucket of its key, a new one if there is none. -/
def pushBucket (key : κ) (value : ν) : List (κ × List ν) → List (κ × List ν)
  | [] => [(key, [value])]
  | (k, values) :: rest =>
    if c k key = .eq then (k, values ++ [value]) :: rest
    else (k, values) :: pushBucket key value rest

/-- The values under a key. -/
def bucket (key : κ) : List (κ × List ν) → Option (List ν)
  | [] => none
  | (k, values) :: rest => if c k key = .eq then some values else bucket key rest

variable {c} [Std.TransCmp c]

/-- A push is seen under every key equal to its own. -/
theorem bucket_push (key other : κ) (value : ν) (table : List (κ × List ν)) :
    bucket c other (pushBucket c key value table) =
      if c key other = .eq then some ((bucket c other table).getD [] ++ [value])
      else bucket c other table := by
  induction table with
  | nil => simp [pushBucket, bucket]
  | cons entry rest ih =>
    obtain ⟨k, values⟩ := entry
    unfold pushBucket
    by_cases hkey : c k key = .eq
    · -- the bucket of `key` is also the one of every key equal to it
      have hsame : c k other = c key other := Std.TransCmp.congr_left hkey
      rw [if_pos hkey, bucket, bucket, hsame]
      split_ifs <;> rfl
    · rw [if_neg hkey, bucket, bucket, ih]
      by_cases hother : c k other = .eq
      · have hne : c key other ≠ .eq := by
          intro h
          exact hkey (Std.TransCmp.eq_trans hother (Std.OrientedCmp.eq_symm h))
        rw [if_pos hother, if_neg hne, if_pos hother]
      · rw [if_neg hother, if_neg hother]

/-- **The bucket of a key**: the values pushed under equal keys, in order. -/
theorem bucket_foldl_push (key : κ) (entries : List (κ × ν)) :
    ∀ table : List (κ × List ν),
      (bucket c key (entries.foldl (fun table entry => pushBucket c entry.1 entry.2 table)
        table)).getD [] =
      (bucket c key table).getD [] ++
        ((entries.filter fun entry => c entry.1 key == .eq).map Prod.snd) := by
  induction entries with
  | nil => simp
  | cons entry entries ih =>
    intro table
    rw [List.foldl_cons, ih, bucket_push, List.filter_cons]
    by_cases h : c entry.1 key = .eq
    · rw [if_pos h, if_pos (by rw [h]; rfl), Option.getD_some, List.append_assoc]
      rfl
    · rw [if_neg h, if_neg (by simpa using h)]

end HelixDb.Lib
