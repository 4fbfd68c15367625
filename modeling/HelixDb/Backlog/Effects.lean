/-
  HelixDb.Backlog.Effects

  **WHAT A LEDGER STEP DOES TO THE CHARGES AND THE COUNTS** when it does not
  panic, one operation ID at a time.

  Unlike the accounts, none of this depends on the aggregates: it is what the
  exactly-once argument reads.
-/
import HelixDb.Backlog.Reserve

namespace HelixDb.Backlog

open HelixDb.Lib HelixDb.Keys HelixDb.Lifecycle BacklogState
open FinMap (lookup_insert_eq lookup_erase_eq lookup_ite)

/-! ## §1. Books and the uncertain index. -/

/-- Nothing was counted and the clock did not move. -/
structure Kept (s t : BacklogState) : Prop where
  counted : t.counted = s.counted
  outcomes : t.outcomes = s.outcomes
  lag : t.lag = s.lag
  clock : t.reconcileClock = s.reconcileClock

theorem Kept.refl (s : BacklogState) : Kept s s := ⟨rfl, rfl, rfl, rfl⟩

/-- The uncertain index names only uncertain charges, under their own targets. -/
def IndexSound (s : BacklogState) : Prop :=
  ∀ target id, id ∈ (s.uncertain.lookup target).getD ∅ →
    ∃ charge, s.charges.lookup id = some charge ∧ charge.target = target ∧
      charge.state.isUncertain = true

variable {s t : BacklogState} {id : QueuedOperationId} {released : Option Charge}
  {target : QueueTarget}

namespace BacklogState

/-- **Inversion of a readmission**: the generation of the charge gets the next admission. -/
theorem readmit_inv (h : s.readmit id = .ok t) :
    ∃ charge usage work, s.charges.lookup id = some charge ∧
      s.indexes.lookup charge.target.logicalIndex = some usage ∧
      usage.generations.lookup charge.target.generation = some work ∧
      t = { s with
        admissions := s.admissions + 1
        indexes := s.indexes.insert charge.target.logicalIndex { usage with
          generations := usage.generations.insert charge.target.generation
            ⟨work.operations, s.admissions + 1⟩ } } := by
  unfold readmit at h
  split at h
  case h_2 => cases h
  case h_1 charge hcharge =>
    split at h
    case h_2 => cases h
    case h_1 usage husage =>
      split at h
      case h_2 => cases h
      case h_1 work hwork =>
        cases h
        exact ⟨charge, usage, work, hcharge, husage, hwork, rfl⟩

theorem forgetUncertain_ok (h : s.forgetUncertain target id = .ok t) :
    (∃ uncertain, t = { s with uncertain := uncertain }) ∧
      ∀ target' id', id' ∈ (t.uncertain.lookup target').getD ∅ →
        id' ∈ (s.uncertain.lookup target').getD ∅ ∧ ¬ (target' = target ∧ id' = id) := by
  unfold forgetUncertain at h
  split at h
  case h_2 => cases h
  case h_1 ids hids =>
    split at h
    case isFalse => cases h
    case isTrue =>
      cases h
      refine ⟨⟨_, rfl⟩, ?_⟩
      intro target' id' hmem
      rw [lookup_ite] at hmem
      split_ifs at hmem with htarget hempty
      · cases Finset.notMem_empty id' hmem
      · rw [Option.getD_some, Finset.mem_erase] at hmem
        rw [htarget, hids]
        exact ⟨hmem.2, fun hboth => hmem.1 hboth.2⟩
      · exact ⟨hmem, fun hboth => htarget hboth.1⟩

/-- Reindexing changes the uncertain index alone, and never adds another entry than the one that
    became uncertain. -/
theorem reindex_ok {before after : Bool}
    (h : s.reindex target id before after = .ok t) :
    (∃ uncertain, t = { s with uncertain := uncertain }) ∧
      ∀ target' id', id' ∈ (t.uncertain.lookup target').getD ∅ →
        (id' ∈ (s.uncertain.lookup target').getD ∅ ∧
          (id' = id → target' = target → before = after)) ∨
        (target' = target ∧ id' = id ∧ after = true) := by
  cases before with
  | false =>
    cases after with
    | false =>
      cases h
      exact ⟨⟨_, rfl⟩, fun _ _ hmem => .inl ⟨hmem, fun _ _ => rfl⟩⟩
    | true =>
      cases h
      refine ⟨⟨_, rfl⟩, ?_⟩
      intro target' id' hmem
      rw [lookup_insert_eq] at hmem
      split_ifs at hmem with htarget
      · rw [Option.getD_some, Finset.mem_insert] at hmem
        by_cases hid : id' = id
        · exact .inr ⟨htarget, hid, rfl⟩
        · refine .inl ⟨?_, fun heq => absurd heq hid⟩
          rw [htarget]
          exact hmem.resolve_left hid
      · exact .inl ⟨hmem, fun _ heq => absurd heq htarget⟩
  | true =>
    cases after with
    | true =>
      cases h
      exact ⟨⟨_, rfl⟩, fun _ _ hmem => .inl ⟨hmem, fun _ _ => rfl⟩⟩
    | false =>
      obtain ⟨hsame, hmem⟩ := forgetUncertain_ok h
      refine ⟨hsame, ?_⟩
      intro target' id' hin
      obtain ⟨hold, hne⟩ := hmem target' id' hin
      exact .inl ⟨hold, fun hid htarget => absurd ⟨htarget, hid⟩ hne⟩

/-- **A transition moves one charge**, and no index. -/
theorem transition_ok {next : ChargeState → ChargeState} {previous : Option ChargeState}
    (h : s.transition id next = .ok (t, previous)) (hsound : IndexSound s) :
    previous = (s.charges.lookup id).map (·.state) ∧ Kept s t ∧ IndexSound t ∧
      (∀ other, t.charges.lookup other =
        if other = id then (s.charges.lookup id).map (·.move next) else s.charges.lookup other) ∧
      t.indexes = s.indexes ∧ t.admissions = s.admissions := by
  unfold transition at h
  split at h
  case h_2 hnot =>
    cases h
    have hnone := Option.eq_none_iff_forall_ne_some.mpr hnot
    refine ⟨by rw [hnone]; rfl, .refl s, hsound, ?_, rfl, rfl⟩
    intro other
    split_ifs with hother
    · rw [hother, hnone]
      rfl
    · rfl
  case h_1 charge hcharge =>
    obtain ⟨u, hreindex, hreturn⟩ := except_bind_ok h
    cases hreturn
    obtain ⟨⟨uncertain, rfl⟩, hmem⟩ := reindex_ok hreindex
    have hlookup : ∀ other, (s.charges.insert id (charge.move next)).lookup other =
        if other = id then some (charge.move next) else s.charges.lookup other :=
      fun other => lookup_insert_eq _ _ _ _
    rw [hcharge]
    refine ⟨rfl, ⟨rfl, rfl, rfl, rfl⟩, ?_, hlookup, rfl, rfl⟩
    intro target other hin
    rw [hlookup]
    rcases hmem target other hin with ⟨hold, hsame⟩ | ⟨htarget, hid, hafter⟩
    · obtain ⟨found, hfound, htarget, hstate⟩ := hsound target other hold
      by_cases hid : other = id
      · rw [hid, hcharge] at hfound
        cases hfound
        have hafter := hsame hid htarget.symm
        rw [if_pos hid]
        exact ⟨_, rfl, htarget, hafter ▸ hstate⟩
      · rw [if_neg hid]
        exact ⟨found, hfound, htarget, hstate⟩
    · rw [if_pos hid]
      exact ⟨_, rfl, htarget.symm, hafter⟩

/-- **Inversion of a release**: nothing was retained, or the charge leaves the charges, the
    uncertain index and the usage of its index. -/
theorem release_inv (h : s.release id = .ok (t, released)) :
    s.charges.lookup id = none ∧ released = none ∧ t = s ∨
      ∃ charge u usage left, s.charges.lookup id = some charge ∧ released = some charge ∧
        reindex { s with charges := s.charges.erase id } charge.target id
          charge.state.isUncertain false = .ok u ∧
        u.indexes.lookup charge.target.logicalIndex = some usage ∧
        usage.remove charge.member charge.charged = .ok left ∧
        t = { u with
          indexes := if left.generations.keys = [] then u.indexes.erase charge.target.logicalIndex
            else u.indexes.insert charge.target.logicalIndex left } := by
  unfold release at h
  split at h
  case h_2 hnot =>
    cases h
    exact .inl ⟨Option.eq_none_iff_forall_ne_some.mpr hnot, rfl, rfl⟩
  case h_1 charge hcharge =>
    obtain ⟨u, hforget, hrest⟩ := except_bind_ok h
    split at hrest
    case h_2 => cases hrest
    case h_1 usage husage =>
      obtain ⟨left, hremove, hreturn⟩ := except_bind_ok hrest
      cases hreturn
      refine .inr ⟨charge, u, usage, left, hcharge, rfl, ?_, husage, hremove, rfl⟩
      rw [← hforget, forgetIfUncertain]
      cases charge.state.isUncertain <;> rfl

/-- **A release removes one charge.** -/
theorem release_ok (h : s.release id = .ok (t, released))
    (hsound : IndexSound s) :
    released = s.charges.lookup id ∧ Kept s t ∧ IndexSound t ∧
      ∀ other, t.charges.lookup other = if other = id then none else s.charges.lookup other := by
  rcases release_inv h with ⟨hnone, rfl, rfl⟩ |
    ⟨charge, u, usage, left, hcharge, rfl, hreindex, -, -, rfl⟩
  · refine ⟨hnone.symm, .refl t, hsound, ?_⟩
    intro other
    split_ifs with hother
    · rw [hother, hnone]
    · rfl
  · obtain ⟨⟨uncertain, rfl⟩, hmem⟩ := reindex_ok hreindex
    have hlookup : ∀ other, (s.charges.erase id).lookup other =
        if other = id then none else s.charges.lookup other :=
      fun other => lookup_erase_eq _ _ _
    refine ⟨hcharge.symm, ⟨rfl, rfl, rfl, rfl⟩, ?_, hlookup⟩
    intro target other hin
    rw [hlookup]
    rcases hmem target other hin with ⟨hold, hsame⟩ | ⟨-, -, hafter⟩
    · obtain ⟨found, hfound, htarget, hstate⟩ := hsound target other hold
      by_cases hid : other = id
      · rw [hid, hcharge] at hfound
        cases hfound
        have hbefore := hsame hid htarget.symm
        simp [hbefore] at hstate
      · rw [if_neg hid]
        exact ⟨found, hfound, htarget, hstate⟩
    · cases hafter

end BacklogState

/-! ## §2. Admissions. -/

/-- `latest_admission`. -/
def BacklogState.latestAdmission (s : BacklogState) (target : QueueTarget) : Option Nat :=
  ((s.indexes.lookup target.logicalIndex).bind fun usage =>
    usage.generations.lookup target.generation).map (·.latest)

/-- The step issued the next admission, to `target`. -/
structure Admits (s t : BacklogState) (target : QueueTarget) : Prop where
  admissions : t.admissions = s.admissions + 1
  latest : ∀ other, t.latestAdmission other =
    if other = target then some t.admissions else s.latestAdmission other

/-- No generation holds an admission that was not issued. -/
def Issued (s : BacklogState) : Prop :=
  ∀ target a, s.latestAdmission target = some a → a ≤ s.admissions

theorem Issued.of_eq (h : Issued s) (hindexes : t.indexes = s.indexes)
    (hadmissions : t.admissions = s.admissions) : Issued t := by
  intro target a hlatest
  rw [latestAdmission, hindexes] at hlatest
  rw [hadmissions]
  exact h target a hlatest

theorem Admits.issued (h : Admits s t target) (hs : Issued s) :
    Issued t := by
  intro other a hlatest
  rw [h.latest] at hlatest
  split at hlatest
  case isTrue => exact (Option.some.inj hlatest).ge
  case isFalse =>
    have hle := hs other a hlatest
    have hnext := h.admissions
    omega

/-- Replacing the usage of one index changes the admissions of one generation. -/
theorem admits_of_insert {usage : IndexUsage}
    {generations : FinMap IndexGenerationId GenerationUsage} {work : GenerationUsage}
    (hadmissions : t.admissions = s.admissions + 1) (hwork : work.latest = t.admissions)
    (hold : generations = ((s.indexes.lookup target.logicalIndex).getD .empty).generations)
    (hgenerations : usage.generations = generations.insert target.generation work)
    (hindexes : t.indexes = s.indexes.insert target.logicalIndex usage) : Admits s t target := by
  refine ⟨hadmissions, ?_⟩
  intro other
  unfold BacklogState.latestAdmission
  rw [hindexes, lookup_insert_eq]
  by_cases hindex : other.logicalIndex = target.logicalIndex
  · rw [if_pos hindex, Option.bind_some, hgenerations, lookup_insert_eq]
    by_cases hgeneration : other.generation = target.generation
    · have hsame : other = target := by
        cases other
        simp_all [QueueTarget.logicalIndex]
      rw [if_pos hgeneration, if_pos hsame, ← hwork]
      rfl
    · have hne : other ≠ target := fun h => hgeneration (congrArg _ h)
      rw [if_neg hgeneration, if_neg hne, hold, hindex]
      cases s.indexes.lookup target.logicalIndex <;> rfl
  · have hne : other ≠ target := fun h => hindex (congrArg _ h)
    rw [if_neg hindex, if_neg hne]

theorem inserted_admits (s : BacklogState) (a : OperationCharge) (state : ChargeState) :
    Admits s (s.inserted a state) a.target := by
  refine admits_of_insert rfl ?_ rfl rfl rfl
  cases IndexUsage.generations _ |>.lookup a.target.generation <;> rfl

theorem readmit_admits {charge : Charge} (h : s.readmit id = .ok t)
    (hcharge : s.charges.lookup id = some charge) : Admits s t charge.target := by
  obtain ⟨found, usage, work, hfound, husage, -, rfl⟩ := readmit_inv h
  rw [hcharge] at hfound
  cases hfound
  exact admits_of_insert rfl rfl (by rw [husage]; rfl) rfl rfl

/-- A release leaves the generations that remain their admissions. -/
theorem remove_latest {usage left : IndexUsage} {member : Member} {charged a : Nat}
    {generation : IndexGenerationId} (h : usage.remove member charged = .ok left)
    (hlatest : (left.generations.lookup generation).map (·.latest) = some a) :
    (usage.generations.lookup generation).map (·.latest) = some a := by
  unfold IndexUsage.remove at h
  split at h
  case h_2 => cases h
  case h_1 references _ =>
    split at h
    case h_2 => cases h
    case h_1 work hwork =>
      cases h
      simp only [IndexUsage.without, lookup_ite] at hlatest
      split_ifs at hlatest with hsame hlast
      · cases hlatest
      · rwa [hsame, hwork]
      · exact hlatest

theorem release_issued (h : s.release id = .ok (t, released)) :
    t.admissions = s.admissions ∧ (Issued s → Issued t) := by
  rcases release_inv h with ⟨-, -, rfl⟩ | ⟨charge, u, usage, left, -, -, hreindex, husage, hremove, rfl⟩
  · exact ⟨rfl, fun hs => hs⟩
  · obtain ⟨⟨uncertain, rfl⟩, -⟩ := reindex_ok hreindex
    refine ⟨rfl, ?_⟩
    intro hs target a hlatest
    refine hs target a ?_
    simp only [latestAdmission, lookup_ite] at hlatest ⊢
    split_ifs at hlatest with hindex hlast
    · cases hlatest
    · rw [hindex, husage]
      exact remove_latest hremove hlatest
    · exact hlatest

/-! ## §3. One operation's view. -/

/-- What the ledger holds and has counted of one operation. -/
@[ext] structure View where
  charge : Option Charge
  committed : Nat
  discovered : Nat
  acknowledged : Nat

/-- The view of the operation `id`. -/
def BacklogState.view (s : BacklogState) (id : QueuedOperationId) : View :=
  ⟨s.charges.lookup id, s.counted.count (.committed id), s.counted.count (.discovered id),
    s.counted.count (.acknowledged id)⟩

/-- The state of a charge whose enqueue outcome is unknown. -/
def ChargeState.isUncertainEnqueue : ChargeState → Bool
  | .uncertain .enqueue _ => true
  | _ => false

namespace View

/-- The charge moves. -/
def move (v : View) (next : ChargeState → ChargeState) : View :=
  { v with charge := v.charge.map (·.move next) }

/-- The charge is removed. -/
def release (v : View) : View := { v with charge := none }

/-- The acknowledgement of the charge it holds is counted; it proves an uncertain enqueue. -/
def acknowledge (v : View) : View :=
  match v.charge with
  | none => v
  | some charge =>
    { charge := none
      committed := v.committed
      discovered := v.discovered + (if charge.state.isUncertainEnqueue then 1 else 0)
      acknowledged := v.acknowledged + 1 }

/-- An acknowledgement without an outcome. -/
def mark (v : View) (marked : Nat) (returned : Instant) : View :=
  { v.move (BacklogState.uncertainAcknowledgement marked returned) with
    discovered := v.discovered +
      (if v.charge.any (·.state.isUncertainEnqueue) then 1 else 0) }

/-- The producer's outcome. -/
def resolve (v : View) (outcome : BacklogState.ReservationOutcome) (now : Instant)
    (marked : Nat) : View :=
  match outcome with
  | .committed =>
    { v.move (BacklogState.settleReserved (.durable (.committed now))) with
      committed := v.committed + 1 }
  | .aborted => v.release
  | .uncertain =>
    { v.move (BacklogState.settleReserved (.uncertain .enqueue marked)) with
      discovered := v.discovered +
        (if v.charge.any (fun charge => decide (charge.state = .reserved)) then 0 else 1) }

/-- A reconciliation settles an uncertain charge. -/
def settle (v : View) (commit : UncertainCommit) (present : Bool) : View :=
  match commit, present with
  | .enqueue, true =>
    { v.move (fun _ => .durable .discovered) with discovered := v.discovered + 1 }
  | .enqueue, false => v.release
  | .acknowledgement origin _, true => v.move fun _ => .durable origin
  | .acknowledgement _ _, false => v.acknowledge

end View

/-- The counters are those of the counted events, and every acknowledgement was timed or
    censored. -/
structure Tied (s : BacklogState) : Prop where
  committed : s.outcomes.committed = s.counted.countP fun event =>
    match event with | .committed _ => true | _ => false
  discovered : s.outcomes.discovered = s.counted.countP fun event =>
    match event with | .discovered _ => true | _ => false
  acknowledged : s.outcomes.acknowledged = s.counted.countP fun event =>
    match event with | .acknowledged _ => true | _ => false
  timed : s.outcomes.acknowledged = s.outcomes.acknowledgedCensored + s.lag.count

/-- A step changed the view of `id` alone, to `v`, and kept the books right. -/
structure Moves (s t : BacklogState) (id : QueuedOperationId) (v : View) : Prop where
  sound : IndexSound t
  tied : Tied t
  clock : t.reconcileClock = s.reconcileClock
  views : ∀ other, t.view other = if other = id then v else s.view other

/-- A step that `Moves` one view, and leaves no admission in the indexes that was not issued. -/
structure Steps (s t : BacklogState) (id : QueuedOperationId) (v : View) : Prop
    extends Moves s t id v where
  admissions : s.admissions ≤ t.admissions
  issued : Issued s → Issued t

theorem tied_empty : Tied .empty := ⟨rfl, rfl, rfl, rfl⟩

theorem Tied.of_kept (h : Tied s) (hkept : Kept s t) : Tied t := by
  refine ⟨?_, ?_, ?_, ?_⟩
  · rw [hkept.outcomes, hkept.counted, h.committed]
  · rw [hkept.outcomes, hkept.counted, h.discovered]
  · rw [hkept.outcomes, hkept.counted, h.acknowledged]
  · rw [hkept.outcomes, hkept.lag, h.timed]

theorem tied_count_committed (h : Tied s) : Tied (s.count (.committed id)) := by
  obtain ⟨hc, hd, ha, ht⟩ := h
  refine ⟨?_, ?_, ?_, ht⟩ <;> simp [count, hc, hd, ha]

theorem tied_count_discovered (h : Tied s) : Tied (s.count (.discovered id)) := by
  obtain ⟨hc, hd, ha, ht⟩ := h
  refine ⟨?_, ?_, ?_, ht⟩ <;> simp [count, hc, hd, ha]

/-- Every acknowledgement is timed or censored, whatever charge it releases. -/
theorem tied_countAcknowledgement (h : Tied s) (released : ChargeState) (now : Instant) :
    Tied (s.countAcknowledgement id released now) := by
  obtain ⟨hc, hd, ha, ht⟩ := h
  unfold countAcknowledgement
  rcases released with _ | (_ | _) | ⟨_ | ⟨_ | _, _⟩, _⟩ <;>
    refine ⟨?_, ?_, ?_, ?_⟩ <;>
    simp [count, PublicationLagHistogram.record] <;>
    omega

/-- The view after a step that counted nothing. -/
theorem view_of_kept (hkept : Kept s t) {charge : Option Charge}
    (hcharges : ∀ other, t.charges.lookup other =
      if other = id then charge else s.charges.lookup other) (other : QueuedOperationId) :
    t.view other = if other = id then { s.view id with charge := charge } else s.view other := by
  simp only [view, hcharges, hkept.counted]
  by_cases hother : other = id <;> simp [hother]

theorem view_count_committed (s : BacklogState) (id other : QueuedOperationId) :
    (s.count (.committed id)).view other =
      if other = id then { s.view id with committed := (s.view id).committed + 1 }
      else s.view other := by
  split_ifs with hother
  · subst hother
    simp [view, count]
  · simp [view, count, Ne.symm hother]

theorem view_count_discovered (s : BacklogState) (id other : QueuedOperationId) :
    (s.count (.discovered id)).view other =
      if other = id then { s.view id with discovered := (s.view id).discovered + 1 }
      else s.view other := by
  split_ifs with hother
  · subst hother
    simp [view, count]
  · simp [view, count, Ne.symm hother]

theorem view_countAcknowledgement (s : BacklogState) (id : QueuedOperationId)
    (released : ChargeState) (now : Instant) (other : QueuedOperationId) :
    (s.countAcknowledgement id released now).view other =
      if other = id then
        { s.view id with
          discovered := (s.view id).discovered + (if released.isUncertainEnqueue then 1 else 0)
          acknowledged := (s.view id).acknowledged + 1 }
      else s.view other := by
  unfold countAcknowledgement
  by_cases hother : other = id
  · subst hother
    rcases released with _ | (_ | _) | ⟨_ | ⟨_ | _, _⟩, _⟩ <;>
      simp [view, count,
        ChargeState.isUncertainEnqueue]
  · rcases released with _ | (_ | _) | ⟨_ | ⟨_ | _, _⟩, _⟩ <;>
      simp [view, count, hother, Ne.symm hother]

/-! ## §4. The steps of the loops. -/

/-- A sound index stays sound when only the books change. -/
theorem IndexSound.of_eq (h : IndexSound s) (hcharges : t.charges = s.charges)
    (huncertain : t.uncertain = s.uncertain) : IndexSound t := by
  intro target id hmem
  rw [hcharges]
  exact h target id (huncertain ▸ hmem)

theorem countAcknowledgement_eq (s : BacklogState) (id : QueuedOperationId)
    (released : ChargeState) (now : Instant) : ∃ counted outcomes lag,
    s.countAcknowledgement id released now =
      { s with counted := counted, outcomes := outcomes, lag := lag } := by
  rcases released with _ | (_ | _) | ⟨_ | ⟨_ | _, _⟩, _⟩ <;> exact ⟨_, _, _, rfl⟩

theorem transition_steps {next : ChargeState → ChargeState} {previous : Option ChargeState}
    (h : s.transition id next = .ok (t, previous)) (hsound : IndexSound s) (htied : Tied s) :
    previous = (s.view id).charge.map (·.state) ∧ Steps s t id ((s.view id).move next) := by
  obtain ⟨hprevious, hkept, hsound', hcharges, hindexes, hadmissions⟩ := transition_ok h hsound
  exact ⟨hprevious, ⟨hsound', htied.of_kept hkept, hkept.clock, view_of_kept hkept hcharges⟩,
    hadmissions.ge, fun hs => hs.of_eq hindexes hadmissions⟩

theorem release_steps (h : s.release id = .ok (t, released))
    (hsound : IndexSound s) (htied : Tied s) :
    released = (s.view id).charge ∧ Steps s t id (s.view id).release := by
  obtain ⟨hreleased, hkept, hsound', hcharges⟩ := release_ok h hsound
  obtain ⟨hadmissions, hissued⟩ := release_issued h
  exact ⟨hreleased, ⟨hsound', htied.of_kept hkept, hkept.clock, view_of_kept hkept hcharges⟩,
    hadmissions.ge, hissued⟩

/-- A readmission changes no view. -/
theorem Steps.readmit {u : BacklogState} {v : View} (h : Steps s t id v)
    (hreadmitted : t.readmit id = .ok u) : Steps s u id v := by
  obtain ⟨charge, usage, work, hcharge, -, -, rfl⟩ := readmit_inv hreadmitted
  have hadmits := readmit_admits hreadmitted hcharge
  exact ⟨⟨h.sound.of_eq rfl rfl, h.tied.of_kept ⟨rfl, rfl, rfl, rfl⟩, h.clock, h.views⟩,
    Nat.le_succ_of_le h.admissions, fun hs => hadmits.issued (h.issued hs)⟩

theorem Steps.count_discovered {v : View} (h : Steps s t id v) :
    Steps s (t.count (.discovered id)) id { v with discovered := v.discovered + 1 } := by
  refine ⟨⟨h.sound.of_eq rfl rfl, tied_count_discovered h.tied, h.clock, ?_⟩, h.admissions,
    fun hs => (h.issued hs).of_eq rfl rfl⟩
  intro other
  rw [view_count_discovered, h.views, h.views, if_pos rfl]
  split_ifs <;> rfl

theorem acknowledgeOne_steps {now : Instant} (h : acknowledgeOne now s id = .ok t)
    (hsound : IndexSound s) (htied : Tied s) : Steps s t id (s.view id).acknowledge := by
  obtain ⟨⟨u, released⟩, hrelease, hreturn⟩ := except_bind_ok h
  obtain ⟨hreleased, hsteps⟩ := release_steps hrelease hsound htied
  cases hcharge : (s.view id).charge with
  | none =>
    rw [hcharge] at hreleased
    subst hreleased
    cases hreturn
    have hsame : (s.view id).release = (s.view id).acknowledge := by
      rw [View.acknowledge, hcharge]
      exact View.ext hcharge.symm rfl rfl rfl
    exact hsame ▸ hsteps
  | some charge =>
    rw [hcharge] at hreleased
    subst hreleased
    cases hreturn
    have htied' : Tied (u.countAcknowledgement id charge.state now) :=
      tied_countAcknowledgement hsteps.tied _ _
    have hviews := view_countAcknowledgement u id charge.state now
    obtain ⟨counted, outcomes, lag, heq⟩ := countAcknowledgement_eq u id charge.state now
    rw [heq] at htied' hviews ⊢
    refine ⟨⟨hsteps.sound.of_eq rfl rfl, htied', hsteps.clock, ?_⟩, hsteps.admissions,
      fun hs => (hsteps.issued hs).of_eq rfl rfl⟩
    intro other
    rw [hviews, hsteps.views, hsteps.views, if_pos rfl, View.acknowledge, hcharge]
    by_cases hother : other = id
    · rw [if_pos hother, if_pos hother]
      rfl
    · rw [if_neg hother, if_neg hother, if_neg hother]

theorem markOne_steps {marked : Nat} {returned : Instant}
    (h : markOne marked returned s id = .ok t) (hsound : IndexSound s)
    (htied : Tied s) : Steps s t id ((s.view id).mark marked returned) := by
  obtain ⟨⟨u, previous⟩, htransition, hreturn⟩ := except_bind_ok h
  obtain ⟨hprevious, hsteps⟩ := transition_steps htransition hsound htied
  cases hcharge : (s.view id).charge with
  | none =>
    rw [hcharge] at hprevious
    subst hprevious
    cases hreturn
    simpa [View.mark, View.move, hcharge] using hsteps
  | some charge =>
    rw [hcharge] at hprevious
    subst hprevious
    obtain ⟨target, entity, charged, state⟩ := charge
    -- Only an uncertain enqueue is proven durable by the attempt.
    rcases state with _ | origin | ⟨_ | ⟨origin, _⟩, m⟩
    case uncertain.enqueue =>
      cases hreturn
      simpa [View.mark, View.move, hcharge, ChargeState.isUncertainEnqueue] using
        hsteps.count_discovered
    all_goals
      cases hreturn
      simpa [View.mark, View.move, hcharge, ChargeState.isUncertainEnqueue] using hsteps

theorem resolveOne_steps {outcome : ReservationOutcome} {now : Instant} {marked : Nat}
    (h : resolveOne outcome now marked s id = .ok t) (hsound : IndexSound s)
    (htied : Tied s) : Steps s t id ((s.view id).resolve outcome now marked) := by
  cases outcome with
  | committed =>
    obtain ⟨⟨u, previous⟩, htransition, hreturn⟩ := except_bind_ok h
    obtain ⟨-, hsteps⟩ := transition_steps htransition (hsound.of_eq rfl rfl)
      (tied_count_committed htied)
    have hcounted : Steps s u id ((s.view id).resolve .committed now marked) := by
      refine ⟨⟨hsteps.sound, hsteps.tied, hsteps.clock, ?_⟩, hsteps.admissions,
        fun hs => hsteps.issued (hs.of_eq rfl rfl)⟩
      intro other
      rw [hsteps.views, view_count_committed, view_count_committed, if_pos rfl]
      split_ifs <;> rfl
    rcases previous with _ | (_ | _ | _)
    case some.reserved => exact hcounted.readmit hreturn
    all_goals
      cases hreturn
      exact hcounted
  | aborted =>
    obtain ⟨⟨u, released⟩, hrelease, hreturn⟩ := except_bind_ok h
    cases hreturn
    exact (release_steps hrelease hsound htied).2
  | uncertain =>
    obtain ⟨⟨u, previous⟩, htransition, hreturn⟩ := except_bind_ok h
    obtain ⟨hprevious, hsteps⟩ := transition_steps htransition hsound htied
    cases hcharge : (s.view id).charge with
    | none =>
      rw [hcharge] at hprevious
      subst hprevious
      cases hreturn
      simpa [View.resolve, View.move, hcharge] using hsteps.count_discovered
    | some charge =>
      rw [hcharge] at hprevious
      subst hprevious
      obtain ⟨target, entity, charged, state⟩ := charge
      rcases state with _ | origin | ⟨commit, m⟩
      case reserved =>
        simpa [View.resolve, View.move, hcharge] using hsteps.readmit hreturn
      all_goals
        cases hreturn
        simpa [View.resolve, View.move, hcharge] using hsteps.count_discovered

/-- A charge that enters changes its own view. -/
theorem inserted_steps {a : OperationCharge} (state : ChargeState)
    (hnew : (s.view a.id).charge = none) (hsound : IndexSound s) (htied : Tied s) :
    Steps s (s.inserted a state) a.id { s.view a.id with
      charge := some (entering a state) } := by
  have hkept : Kept s (s.inserted a state) := ⟨rfl, rfl, rfl, rfl⟩
  refine ⟨⟨?_, htied.of_kept hkept, rfl,
    view_of_kept hkept fun other => lookup_insert_eq _ _ _ _⟩, Nat.le_succ _,
    (inserted_admits s a state).issued⟩
  intro target id hmem
  obtain ⟨charge, hcharge, hrest⟩ := hsound target id hmem
  have hne : id ≠ a.id := by
    rintro rfl
    simp [show s.charges.lookup a.id = none from hnew] at hcharge
  refine ⟨charge, ?_, hrest⟩
  show (s.charges.insert a.id _).lookup id = _
  rw [lookup_insert_eq, if_neg hne, hcharge]

/-- **Settling one charge.** -/
theorem settleOne_steps {now : Instant} {acc acc' : BacklogState × Nat} {commit : UncertainCommit}
    {present : Bool} (h : settleOne now acc (id, commit, present) = .ok acc')
    (hsound : IndexSound acc.1) (htied : Tied acc.1) :
    Steps acc.1 acc'.1 id ((acc.1.view id).settle commit present) := by
  cases commit with
  | enqueue =>
    cases present with
    | true =>
      obtain ⟨⟨u, previous⟩, htransition, hreturn⟩ := except_bind_ok h
      cases hreturn
      exact (transition_steps htransition hsound htied).2.count_discovered
    | false =>
      obtain ⟨⟨u, released⟩, hrelease, hreturn⟩ := except_bind_ok h
      cases hreturn
      exact (release_steps hrelease hsound htied).2
  | acknowledgement origin returned =>
    cases present with
    | true =>
      obtain ⟨⟨u, previous⟩, htransition, hreturn⟩ := except_bind_ok h
      cases hreturn
      exact (transition_steps htransition hsound htied).2
    | false =>
      obtain ⟨⟨u, released⟩, hrelease, hreturn⟩ := except_bind_ok h
      -- The release and its count are one acknowledgement.
      have hone : acknowledgeOne now acc.1 id = .ok acc'.1 := by
        rw [acknowledgeOne, hrelease]
        cases released with
        | none => cases hreturn
        | some charge =>
          cases hreturn
          rfl
      exact acknowledgeOne_steps hone hsound htied

/-! ## §5. What a reconciliation settles. -/

/-- A settled charge, as the settling loop receives it. -/
abbrev Settled := QueuedOperationId × UncertainCommit × Bool

/-- **Inversion of a settlement**: a present enqueue, or a charge marked before the ticket. -/
theorem settlement_inv {ticket : Nat} {found : Finset QueuedOperationId}
    {id : QueuedOperationId} {item : Settled} (h : s.settlement ticket found id = .ok (some item)) :
    ∃ charge commit marked, s.charges.lookup id = some charge ∧
      charge.state = .uncertain commit marked ∧ item = (id, commit, decide (id ∈ found)) ∧
      ((id ∈ found ∧ commit = .enqueue) ∨ marked < ticket) := by
  unfold settlement at h
  split at h
  case h_2 => cases h
  case h_1 charge hcharge =>
    dsimp only [Except.pure] at h
    split at h
    case h_1 commit marked hstate =>
      split_ifs at h with hwhy <;> cases h
      exact ⟨charge, commit, marked, hcharge, hstate, rfl, by simpa using hwhy⟩
    all_goals cases h

theorem settlement_id {ticket : Nat} {found : Finset QueuedOperationId} {id : QueuedOperationId}
    {item : Settled} (h : s.settlement ticket found id = .ok (some item)) : item.1 = id := by
  obtain ⟨charge, commit, marked, -, -, rfl, -⟩ := settlement_inv h
  rfl

/-- The settled charges are visited charges, in visiting order. -/
theorem settled_sublist {ids : List QueuedOperationId} {items : List (Option Settled)}
    (h : List.Forall₂ (fun id item => ∀ settled, item = some settled → settled.1 = id) ids items) :
    ((items.filterMap fun item => item).map Prod.fst).Sublist ids := by
  induction h with
  | nil => exact .slnil
  | @cons id item rest items hhead _ ih =>
    cases item with
    | none => exact ih.cons id
    | some settled =>
      have hid := hhead settled rfl
      simp only [List.filterMap_cons, List.map_cons, hid]
      exact ih.cons_cons id

end HelixDb.Backlog
