/-
  HelixDb.Planner.RangeContainment

  **CONTAINMENT OF RANGES COMPOSES.**

  The planner's containment tests compare positions only, and equal bounds have
  equal positions, so containment is transitive and does not distinguish equal
  ranges; with parameters it is equality of the whole range.

    • `IndexRange.containsRange_trans`, `IndexRange.containsLiteral_of_containsRange`,
      `IndexRange.containsLiteral_congr` — composition.
-/
import HelixDb.Planner.IndexRange

namespace HelixDb.Planner

open HelixDb.Lib RangeIndexLiteral IndexBound
open HelixDb.Ast (PropertyValue)
open HelixDb.Property (RangeKey rangeKey)
open HelixDb.Property.PropertyValue (keyDomain)

/-! ## §1. Bounds. -/

variable {side : Side}

namespace IndexBound

theorem provenAllowsBound_trans {a b c : IndexBound}
    (hab : a.provenAllowsBound side b = true) (hbc : b.provenAllowsBound side c = true) :
    a.provenAllowsBound side c = true := by
  obtain ⟨p, q, hp, hq, hpq⟩ := provenAllowsBound_iff.mp hab
  obtain ⟨q', r, hq', hr, hqr⟩ := provenAllowsBound_iff.mp hbc
  cases hq.symm.trans hq'
  exact provenAllowsBound_iff.mpr ⟨p, r, hp, hr, hpq.trans hqr⟩

theorem provenAllowsValue_of_provenAllowsBound {a b : IndexBound}
    {value : RangeIndexLiteral} (hab : a.provenAllowsBound side b = true)
    (hb : b.provenAllowsValue side value = true) : a.provenAllowsValue side value = true := by
  obtain ⟨p, q, hp, hq, hpq⟩ := provenAllowsBound_iff.mp hab
  obtain ⟨q', key, hq', hkey, hqk⟩ := provenAllowsValue_iff.mp hb
  cases hq.symm.trans hq'
  exact provenAllowsValue_iff.mpr ⟨p, key, hp, hkey, hpq.trans hqk⟩

theorem position_of_beq {a b : IndexBound} (h : a.beq b = true) : a.position = b.position := by
  obtain ⟨hincl, hvalue⟩ := isInclusive_of_beq h
  unfold position literalEndpoint
  cases ha : a.value with
  | literal l =>
    cases hb : b.value with
    | literal m =>
      rw [ha, hb] at hvalue
      have hkey : rangeKey l.dbValue = rangeKey m.dbValue :=
        @RangeIndexValue.rangeKey_of_beq (fun _ => .null) (.literal l) (.literal m) hvalue
      simp [hkey, hincl]
    | param name => rw [ha, hb] at hvalue; cases hvalue
  | param name =>
    cases hb : b.value with
    | literal m => rw [ha, hb] at hvalue; cases hvalue
    | param name' => rfl

theorem beq_trans {a b c : IndexBound} (hab : a.beq b = true) (hbc : b.beq c = true) :
    a.beq c = true := by
  have hvalue : ∀ {u v w : RangeIndexValue}, u.beq v = true → v.beq w = true →
      u.beq w = true := by
    intro u v w huv hvw
    cases u <;> cases v <;> first | cases huv | skip
    all_goals cases w <;> first | cases hvw | skip
    · exact Planner.beq_trans huv hvw
    · exact beq_iff_eq.mpr ((beq_iff_eq.mp huv).trans (beq_iff_eq.mp hvw))
  cases a <;> cases b <;> first | cases hab | skip
  all_goals cases c <;> first | cases hbc | skip
  all_goals exact hvalue hab hbc

end IndexBound

/-! ## §2. Ranges. -/

variable {a b range : IndexRange}

namespace IndexRange

/-- One side of range containment: a missing bound admits everything. -/
def SideContains (side : IndexBound.Side) (self other : Option IndexBound) : Prop :=
  ∀ bound ∈ self, ∃ otherBound ∈ other, bound.provenAllowsBound side otherBound = true

/-- Equal sides: both missing, or equal bounds. -/
def SideEqual (self other : Option IndexBound) : Prop :=
  Option.Rel (fun bound otherBound => bound.beq otherBound = true) self other

theorem containsRange_iff :
    a.containsRange b = true ↔ a.beq b = true ∨
      SideContains .lower a.lowerBound b.lowerBound ∧
        SideContains .upper a.upperBound b.upperBound := by
  unfold containsRange SideContains
  rw [Bool.or_eq_true, Bool.and_eq_true, Option.all_eq_true, Option.all_eq_true]
  simp [Option.any_eq_true]

theorem SideContains.trans {a b c : Option IndexBound}
    (hab : SideContains side a b) (hbc : SideContains side b c) : SideContains side a c := by
  intro bound hbound
  obtain ⟨middle, hmiddle, hallows⟩ := hab bound hbound
  obtain ⟨last, hlast, hallows'⟩ := hbc middle hmiddle
  exact ⟨last, hlast, provenAllowsBound_trans hallows hallows'⟩

theorem sides_of_beq (h : a.beq b = true) :
    SideEqual a.lowerBound b.lowerBound ∧ SideEqual a.upperBound b.upperBound := by
  cases a <;> cases b <;> first | cases h | skip
  · exact ⟨.none, .none⟩
  · exact ⟨.some h, .none⟩
  · exact ⟨.none, .some h⟩
  · rw [beq, Bool.and_eq_true] at h
    exact ⟨.some h.1, .some h.2⟩

theorem SideContains.congr_left {a b c : Option IndexBound}
    (hab : SideEqual a b) (hbc : SideContains side b c) : SideContains side a c := by
  cases hab with
  | none => exact hbc
  | @some x y hxy =>
    rintro _ ⟨⟩
    obtain ⟨last, hlast, hallows⟩ := hbc y rfl
    rw [provenAllowsBound_iff, ← position_of_beq hxy,
      ← provenAllowsBound_iff] at hallows
    exact ⟨last, hlast, hallows⟩

theorem SideContains.congr_right {a b c : Option IndexBound}
    (hab : SideContains side a b) (hbc : SideEqual b c) : SideContains side a c := by
  cases hbc with
  | none => exact hab
  | @some y z hyz =>
    intro bound hbound
    obtain ⟨_, ⟨⟩, hallows⟩ := hab bound hbound
    rw [provenAllowsBound_iff, position_of_beq hyz,
      ← provenAllowsBound_iff] at hallows
    exact ⟨z, rfl, hallows⟩

theorem beq_trans {a b c : IndexRange} (hab : a.beq b = true) (hbc : b.beq c = true) :
    a.beq c = true := by
  cases a <;> cases b <;> first | cases hab | skip
  all_goals cases c <;> first | cases hbc | skip
  · rfl
  · exact IndexBound.beq_trans hab hbc
  · exact IndexBound.beq_trans hab hbc
  · rw [beq, Bool.and_eq_true] at hab hbc ⊢
    exact ⟨IndexBound.beq_trans hab.1 hbc.1, IndexBound.beq_trans hab.2 hbc.2⟩

/-- **Range containment is transitive.** -/
theorem containsRange_trans {a b c : IndexRange} (hab : a.containsRange b = true)
    (hbc : b.containsRange c = true) : a.containsRange c = true := by
  rw [containsRange_iff] at hab hbc ⊢
  rcases hab with hab | hab
  · obtain ⟨hlo, hhi⟩ := sides_of_beq hab
    rcases hbc with hbc | hbc
    · exact .inl (beq_trans hab hbc)
    · exact .inr ⟨hbc.1.congr_left hlo, hbc.2.congr_left hhi⟩
  · rcases hbc with hbc | hbc
    · obtain ⟨hlo, hhi⟩ := sides_of_beq hbc
      exact .inr ⟨hab.1.congr_right hlo, hab.2.congr_right hhi⟩
    · exact .inr ⟨hab.1.trans hbc.1, hab.2.trans hbc.2⟩

/-- A literal is contained when both sides allow its key. -/
theorem containsLiteral_iff {v : PropertyValue} :
    range.containsLiteral v = true ↔ ∃ l, tryFromPropertyValue v = some l ∧
      (∀ bound ∈ range.lowerBound, bound.provenAllowsValue .lower l = true) ∧
        ∀ bound ∈ range.upperBound, bound.provenAllowsValue .upper l = true := by
  unfold containsLiteral
  cases hl : tryFromPropertyValue v with
  | none => simp
  | some l => cases range <;> simp [lowerBound, upperBound]

/-- **A range contains the literals of the ranges it contains.** -/
theorem containsLiteral_of_containsRange {v : PropertyValue}
    (hab : a.containsRange b = true) (hb : b.containsLiteral v = true) :
    a.containsLiteral v = true := by
  obtain ⟨l, hl, hlo, hhi⟩ := containsLiteral_iff.mp hb
  have hstep : ∀ {side : Side} {c d : Option IndexBound},
      SideEqual c d ∨ SideContains side c d →
      (∀ bound ∈ d, bound.provenAllowsValue side l = true) →
        ∀ bound ∈ c, bound.provenAllowsValue side l = true := by
    intro side c d hcd hd bound hbound
    rcases hcd with hcd | hcd
    · cases hcd with
      | none => cases hbound
      | @some x y hxy =>
        cases hbound
        have hy := hd y rfl
        rwa [provenAllowsValue_iff, ← position_of_beq hxy,
          ← provenAllowsValue_iff] at hy
    · obtain ⟨other, hother, hallows⟩ := hcd bound hbound
      exact provenAllowsValue_of_provenAllowsBound hallows (hd other hother)
  rcases containsRange_iff.mp hab with hbeq | ⟨hlower, hupper⟩
  · obtain ⟨hlower, hupper⟩ := sides_of_beq hbeq
    exact containsLiteral_iff.mpr ⟨l, hl, hstep (.inl hlower) hlo, hstep (.inl hupper) hhi⟩
  · exact containsLiteral_iff.mpr ⟨l, hl, hstep (.inr hlower) hlo, hstep (.inr hupper) hhi⟩

/-- Equal literals are contained in the same ranges. -/
theorem containsLiteral_congr {v w : PropertyValue}
    (hvw : PropertyValue.beq v w = true) (hv : range.containsLiteral v = true) :
    range.containsLiteral w = true := by
  obtain ⟨l, hl, hlo, hhi⟩ := containsLiteral_iff.mp hv
  have hw : ∃ m, tryFromPropertyValue w = some m ∧
      rangeKey l.dbValue = rangeKey m.dbValue := by
    have hequal := propertyValuesEqual_of_beq hvw
    rw [propertyValuesEqual_eq] at hequal
    have hkeys := Property.PropertyValue.rangeKey_eq_of_eqValue hequal
    obtain ⟨key, hkey⟩ := l.exists_rangeKey
    rw [dbValue, toPropertyValue_of_tryFrom hl] at hkey ⊢
    cases hm : tryFromPropertyValue w with
    | none =>
      -- a literal without a range form compares with nothing, but `w` has a key
      have hself := Property.PropertyValue.compare_of_keys (hkeys ▸ hkey) (hkeys ▸ hkey) rfl
      simp [compare_eq_none_of_tryFrom hm] at hself
    | some m =>
      refine ⟨m, rfl, ?_⟩
      rwa [dbValue, toPropertyValue_of_tryFrom hm]
  obtain ⟨m, hm, hkey⟩ := hw
  have hstep : ∀ {side : Side} {bound : IndexBound},
      bound.provenAllowsValue side l = true → bound.provenAllowsValue side m = true := by
    intro side bound h
    rwa [provenAllowsValue_iff, hkey, ← provenAllowsValue_iff] at h
  exact containsLiteral_iff.mpr ⟨m, hm, fun bound h => hstep (hlo bound h),
    fun bound h => hstep (hhi bound h)⟩

end IndexRange

end HelixDb.Planner
