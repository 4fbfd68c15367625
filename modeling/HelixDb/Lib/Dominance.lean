/-
  HelixDb.Lib.Dominance

  **DROPPING DOMINATED ENTRIES.**

  A list is thinned by dropping every entry another one dominates, where of two
  entries that dominate each other the earlier one counts as the larger.  With a
  transitive relation nothing is lost: each entry is still there or has a
  dominating entry that is.
-/
import Mathlib.Order.WellFounded
import Mathlib.Order.Fin.Basic
import Mathlib.Data.Fintype.Basic
import Mathlib.Data.Fintype.EquivFin
import Mathlib.Order.RelClasses

namespace HelixDb.Lib

section Dominance

variable {α : Type*} (R : α → α → Prop) (entries : List α)

/-- The entry at `j` makes the entry at `i` superfluous. -/
def Dominates (j i : Fin entries.length) : Prop :=
  R (entries.get j) (entries.get i) ∧ (¬R (entries.get i) (entries.get j) ∨ j < i)

variable {R entries}

theorem Dominates.trans (hR : ∀ a b c, R a b → R b c → R a c) {k j i : Fin entries.length}
    (hkj : Dominates R entries k j) (hji : Dominates R entries j i) : Dominates R entries k i := by
  refine ⟨hR _ _ _ hkj.1 hji.1, ?_⟩
  by_cases hik : R (entries.get i) (entries.get k)
  · -- all three dominate each other, so both steps went to an earlier entry
    have hjk := hR _ _ _ hji.1 hik
    have hij := hR _ _ _ hik hkj.1
    have hk : k < j := hkj.2.resolve_left (not_not_intro hjk)
    have hj : j < i := hji.2.resolve_left (not_not_intro hij)
    exact .inr (hk.trans hj)
  · exact .inl hik

theorem Dominates.irrefl (i : Fin entries.length) : ¬Dominates R entries i i := by
  rintro ⟨hself, hnot | hlt⟩
  · exact hnot hself
  · exact lt_irrefl i hlt

/-- Every entry survives or is dominated by a survivor. -/
theorem exists_undominated (hR : ∀ a b c, R a b → R b c → R a c) (i : Fin entries.length) :
    ∃ k, (∀ j, ¬Dominates R entries j k) ∧ (k = i ∨ R (entries.get k) (entries.get i)) := by
  have : IsTrans (Fin entries.length) (Dominates R entries) := ⟨fun _ _ _ => Dominates.trans hR⟩
  have : Std.Irrefl (Dominates R entries) := ⟨Dominates.irrefl⟩
  have hwf : WellFounded (Dominates R entries) := Finite.wellFounded_of_trans_of_irrefl _
  induction i using hwf.induction with
  | _ i ih =>
    by_cases hdominated : ∃ j, Dominates R entries j i
    · obtain ⟨j, hj⟩ := hdominated
      obtain ⟨k, hk, rfl | hkj⟩ := ih j hj
      · exact ⟨k, hk, .inr hj.1⟩
      · exact ⟨k, hk, .inr (hR _ _ _ hkj hj.1)⟩
    · exact ⟨i, not_exists.mp hdominated, .inl rfl⟩

end Dominance

end HelixDb.Lib
