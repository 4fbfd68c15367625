/-
  HelixDb.IdAllocator.Returned

  **WHAT CALLERS GET**: over every run, no ID is returned twice, every returned
  ID was below the stored watermark, and, as long as no write takes effect
  late, no call returns an ID below a reservation confirmed before the call.

    • `claims_step` — one action keeps every claim, except for one new claim at
      the counter;
    • `emits_step` — the events one action can emit;
    • `accounted_step` — the three properties grow with the history.
-/
import HelixDb.IdAllocator.Safety

namespace HelixDb.IdAllocator

open HelixDb.Lib HelixDb.Encoding List

/-! ## §1. Properties of a history. -/

/-- The watermark in storage after a history that began with `initial` stored. -/
def lastPersisted (initial : Nat) (history : List Event) : Nat :=
  history.foldl (fun mark event => match event with
    | .persisted watermark => watermark
    | _ => mark) initial

/-- No ID of a returned range was returned before. -/
def ReturnsFresh (older : List Event) : Event → Prop
  | .returned _ ids => ∀ id ∈ ids, ∀ task ids', .returned task ids' ∈ older → id ∉ ids'
  | _ => True

/-- Every returned ID is below the watermark persisted by then. -/
def ReturnsBelow (initial : Nat) (older : List Event) : Event → Prop
  | .returned _ ids => ∀ id ∈ ids, id < lastPersisted initial older
  | _ => True

/-- `reserve_at_least(next)` returned before the call of `task` began. -/
def ReservedBefore (history : List Event) (task next : Nat) : Prop :=
  [.reserved next, .called task].Sublist history

/-- No ID of a returned range is below a reservation confirmed before its call began. -/
def ReturnsReserved (older : List Event) : Event → Prop
  | .returned task ids => ∀ next, ReservedBefore older task next → ∀ id ∈ ids, next ≤ id
  | _ => True

/-! ## §2. Claims of running calls. -/

/-- The call `task` is running and has claimed `ids`. -/
def ClaimedBy (s : State) (task : Nat) (ids : IdRange) : Prop :=
  ∃ phase, s.tasks task = some phase ∧ phase.claim = some ids

/-- The ranges share no ID. -/
def Apart (ids ids' : IdRange) : Prop := ∀ id ∈ ids, id ∉ ids'

variable {ids ids' : IdRange}

theorem Apart.symm (h : Apart ids ids') : Apart ids' ids :=
  fun id hmem hmem' => h id hmem' hmem

theorem apart_of_le (h : ids'.stop ≤ ids.start) : Apart ids ids' := by
  rintro id ⟨hstart, -⟩ ⟨-, hstop⟩
  omega

variable {late : Bool} {task initial next : Nat}

section Steps

variable {cfg : Config} {history : List Event} {s s' : State} {events : List Event}

theorem ClaimedBy.stop_le (hc : ClaimedBy s task ids)
    (h : Inv late history s) : ids.stop ≤ s.shared.nextId := by
  obtain ⟨phase, hphase, hids⟩ := hc
  exact (h.tasks task phase hphase).claim ids hids

theorem Inv.lt_started {phase : Phase} (h : Inv late history s)
    (hphase : s.tasks task = some phase) : task < s.started := by
  by_contra hge
  simp [h.fresh task (Nat.le_of_not_lt hge)] at hphase

/-- A step that claims IDs does so above everything the history has promised. -/
theorem advance_claims_above {task bound : Nat} {sh : Shared} {phase next : Phase} {move : Move}
    (hs : SharedOk late sh bound) (hp : PhaseOk late sh bound phase)
    (hstep : advance cfg task sh phase = some move) (hnext : move.phase = some next)
    (hids : next.claim = some ids) (hnone : phase.claim = none) : bound ≤ sh.nextId := by
  cases phase with
  | claiming count => exact hs.bound_le_next hp
  | initClaiming count leaseEnd => exact hs.bound_le_next hp.2
  | initFreshClaiming count value =>
    obtain ⟨-, -, hloaded, hle⟩ := hp
    exact le_trans hloaded.bound_le hle
  | extending _ after | putting _ after | applied _ after | covered after =>
    cases after <;> simp only [advance] at hstep <;> grind [goto, Phase.claim]
  | _ =>
    simp only [advance, acquire, load] at hstep
    grind [goto, failed, Phase.claim]

variable {action : Action}

/-- **Claims over one action**: a claim was there before, or it is the only new one, made at the
    counter and above everything the history has promised. -/
theorem claims_step (h : Inv late history s)
    (hstep : step cfg s action = some (s', events))
    (hc : ClaimedBy s' task ids) :
    ClaimedBy s task ids ∨
      task < s.started ∧ ids.start = s.shared.nextId ∧ floor late history ≤ s.shared.nextId ∧
        ∀ other ids', other ≠ task → ClaimedBy s' other ids' → ClaimedBy s other ids' := by
  obtain ⟨next, hnext, hids⟩ := hc
  cases action with
  | call call =>
    left
    simp only [step] at hstep
    split at hstep
    case h_1 phase hentry =>
      cases hstep
      rcases update_eq_some.mp hnext with ⟨-, hnew⟩ | ⟨-, hold⟩
      · -- a call starts without claims
        cases hnew
        obtain ⟨count, -, rfl⟩ | ⟨n, -, rfl⟩ := entry_cases hentry <;> cases hids
      · exact ⟨next, hold, hids⟩
    case h_2 =>
      cases hstep
      exact ⟨next, hnext, hids⟩
  | run runner =>
    obtain ⟨phase, move, hphase, hmove, rfl, rfl⟩ := step_run hstep
    have htask := h.tasks runner phase hphase
    have hothers : ∀ other ids', other ≠ runner → ClaimedBy (s.apply runner move) other ids' →
        ClaimedBy s other ids' := by
      rintro other ids' hne ⟨p, hp, hids'⟩
      rcases apply_tasks hp with ⟨rfl, -⟩ | ⟨-, -, rfl⟩ | ⟨-, hold⟩
      · exact absurd rfl hne
      · cases hids'
      · exact ⟨p, hold, hids'⟩
    by_cases hne : task = runner
    · subst hne
      rcases apply_tasks hnext with ⟨-, hmine⟩ | ⟨-, -, rfl⟩ | ⟨hne, -⟩
      · rcases advance_claim hmove hmine hids with ⟨hkeep, -⟩ | ⟨hnone, rfl⟩
        · exact .inl ⟨phase, hphase, hkeep⟩
        · exact .inr ⟨h.lt_started hphase, rfl,
            advance_claims_above h.shared htask.knows hmove hmine hids hnone, hothers⟩
      · cases hids
      · exact absurd rfl hne
    · exact .inl (hothers task ids hne ⟨next, hnext, hids⟩)
  | abandon victim stays =>
    left
    obtain ⟨phase, hphase, hstep⟩ := Option.bind_eq_some_iff.mp hstep
    cases hstep
    rcases update_eq_some.mp hnext with ⟨-, hnone⟩ | ⟨-, hold⟩
    · cases hnone
    · exact ⟨next, hold, hids⟩
  | settle takesEffect =>
    left
    simp only [step] at hstep
    split at hstep
    case h_1 => cases hstep
    case h_2 =>
      split at hstep <;> cases hstep <;> exact ⟨next, hnext, hids⟩
  | shutdown =>
    cases hstep
    exact .inl ⟨next, hnext, hids⟩
  | restart =>
    cases hstep
    cases hnext

/-! ## §3. The events of one action. -/

/-- The events an action from `s` to `s'` can emit. -/
inductive Emits (s s' : State) : List Event → Prop where
  | silent (hmark : s'.shared.watermark = s.shared.watermark) : Emits s s' []
  | called (hmark : s'.shared.watermark = s.shared.watermark) : Emits s s' [.called s.started]
  | emptyBatch (hmark : s'.shared.watermark = s.shared.watermark) :
      Emits s s' [.called s.started, .returned s.started ⟨0, 0⟩]
  | reserved {next : Nat} (hmark : s'.shared.watermark = s.shared.watermark) :
      Emits s s' [.reserved next]
  | persisted {watermark : Nat} (hmark : s'.shared.watermark = watermark) :
      Emits s s' [.persisted watermark]
  | returned {task : Nat} {ids : IdRange} (hmark : s'.shared.watermark = s.shared.watermark)
      (hclaim : ClaimedBy s task ids) (hstop : ids.stop ≤ s.shared.watermark)
      (hgone : ∀ ids', ¬ ClaimedBy s' task ids') : Emits s s' [.returned task ids]

theorem emits_run (h : Inv late history s)
    (hstep : step cfg s (.run task) = some (s', events)) : Emits s s' events := by
  obtain ⟨phase, move, hphase, hmove, rfl, rfl⟩ := step_run hstep
  have htask := h.tasks task phase hphase
  have hchange := (advance_spec h.shared htask.knows htask.lock htask.claim hmove).change
  have hstored : ∀ {sh : Shared}, move.shared = sh → sh.stored = s.shared.stored →
      (s.apply task move).shared.watermark = s.shared.watermark := by
    intro sh heq hsame
    rw [apply_shared, heq]
    exact watermark_congr hsame
  have hne : task ≠ s.started := (h.lt_started hphase).ne
  generalize hshared : move.shared = sh, hevents : move.events = evs at hchange
  cases hchange with
  | read | acquire | raise | store | publish | release | lifecycle =>
    exact .silent (hstored hshared rfl)
  | confirm => exact .reserved (hstored hshared rfl)
  | put hlock hclear hlease hbound hmax =>
    refine .persisted ?_
    rw [apply_shared, hshared]
    exact watermark_of_stored hmax rfl
  | @deliver _ ids hlease hnext =>
    have hmem : .returned task ids ∈ move.events := by rw [hevents]; exact mem_cons_self
    obtain ⟨-, hclaim, hend, -⟩ := advance_returned hmove hmem
    refine .returned (hstored hshared rfl) ⟨phase, hphase, hclaim⟩
      (le_trans hlease h.shared.lease_le_watermark) ?_
    -- a returning step ends its task
    rintro ids' ⟨p, hp, -⟩
    rcases apply_tasks hp with ⟨-, hmine⟩ | ⟨hself, -⟩ | ⟨hself, -⟩
    · simp [hend] at hmine
    · exact hne hself
    · exact hself rfl

/-- **The events of one action.** -/
theorem emits_step (h : Inv late history s) (honTime : late = false → OnTime action)
    (hstep : step cfg s action = some (s', events)) : Emits s s' events := by
  cases action with
  | call call =>
    simp only [step] at hstep
    split at hstep <;> cases hstep
    · exact .called rfl
    · exact .emptyBatch rfl
  | run task => exact emits_run h hstep
  | abandon task stays =>
    obtain ⟨phase, -, hstep⟩ := Option.bind_eq_some_iff.mp hstep
    cases hstep
    exact .silent (watermark_congr rfl)
  | settle takesEffect =>
    simp only [step] at hstep
    split at hstep
    case h_1 => cases hstep
    case h_2 write rest hwrites =>
      split at hstep <;> cases hstep
      case isTrue htrue =>
        have hmax : write ≤ U64_MAX := by
          refine h.shared.marks_le write ?_
          rw [Shared.marks, hwrites]
          cases late with
          | true => exact mem_cons_of_mem _ mem_cons_self
          | false => exact absurd htrue (by simp [show takesEffect = false from honTime rfl])
        exact .persisted (watermark_of_stored hmax rfl)
      case isFalse => exact .silent (watermark_congr rfl)
  | shutdown | restart =>
    cases hstep
    exact .silent (watermark_congr rfl)

/-! ## §4. The properties grow with the history. -/

/-- The three properties of the history, with what they need to know of the running calls. -/
structure Accounted (late : Bool) (initial : Nat) (history : List Event) (s : State) :
    Prop where
  mark : lastPersisted initial history = s.shared.watermark
  apart : ∀ task task' ids ids', task ≠ task' → ClaimedBy s task ids → ClaimedBy s task' ids' →
    Apart ids ids'
  unreturned : ∀ task ids, ClaimedBy s task ids →
    ∀ task' ids', .returned task' ids' ∈ history → Apart ids ids'
  promised : late = false → ∀ task ids next, ClaimedBy s task ids →
    ReservedBefore history task next → next ≤ ids.start
  fresh : EachEvent ReturnsFresh history
  below : EachEvent (ReturnsBelow initial) history
  reserved : late = false → EachEvent ReturnsReserved history

/-- Events that begin no call of `task` add no reservation before it. -/
theorem reservedBefore_append
    (h : ReservedBefore (history ++ events) task next) (hnew : .called task ∉ events) :
    ReservedBefore history task next := by
  obtain ⟨front, back, heq, hfront, hback⟩ := sublist_append_iff.mp h
  rcases eq_nil_or_concat back with rfl | ⟨init, last, rfl⟩
  · rw [append_nil] at heq
    show [Event.reserved next, Event.called task].Sublist history
    rwa [heq]
  · -- The last of the two events would be among the new ones.
    have hlast : last = .called task := by
      have hend := congrArg List.getLast? heq
      simpa using hend.symm
    exact absurd (hback.subset (by simp [hlast])) hnew

theorem ReservedBefore.le_floor (h : ReservedBefore history task next) :
    next ≤ floor false history := by
  have hmem : .reserved next ∈ history := h.subset mem_cons_self
  have hle : (Event.reserved next).bound false ≤ floor false history := bound_le_floor hmem
  exact hle

/-- What the running calls keep over one action, whatever it emits. -/
theorem Accounted.claims (h : Accounted late initial history s)
    (hinv : Inv late history s) (hstep : step cfg s action = some (s', events)) :
    (∀ task task' ids ids', task ≠ task' → ClaimedBy s' task ids → ClaimedBy s' task' ids' →
      Apart ids ids') ∧
    (∀ task ids, ClaimedBy s' task ids →
      ∀ task' ids', .returned task' ids' ∈ history → Apart ids ids') ∧
    (late = false → ∀ task ids next, ClaimedBy s' task ids → .called task ∉ events →
      ReservedBefore (history ++ events) task next → next ≤ ids.start) := by
  refine ⟨?_, ?_, ?_⟩
  · intro task task' ids ids' hne hc hc'
    rcases claims_step hinv hstep hc with hold | ⟨-, hstart, -, hothers⟩
    · rcases claims_step hinv hstep hc' with hold' | ⟨-, hstart', -, -⟩
      · exact h.apart task task' ids ids' hne hold hold'
      · have hstop := hold.stop_le hinv
        exact (apart_of_le (by omega)).symm
    · have hstop := (hothers task' ids' hne.symm hc').stop_le hinv
      exact apart_of_le (by omega)
  · intro task ids hc task' ids' hmem
    rcases claims_step hinv hstep hc with hold | ⟨-, hstart, hfloor, -⟩
    · exact h.unreturned task ids hold task' ids' hmem
    · have hbound : ids'.stop ≤ floor late history := bound_le_floor hmem
      exact apart_of_le (by omega)
  · rintro rfl task ids next hc hnew hreserved
    have hbefore := reservedBefore_append hreserved hnew
    rcases claims_step hinv hstep hc with hold | ⟨-, hstart, hfloor, -⟩
    · exact h.promised rfl task ids next hold hbefore
    · have hle := hbefore.le_floor
      omega

/-- A call with a claim after a step began before that step. -/
theorem claimed_not_called (hinv : Inv late history s) (honTime : late = false → OnTime action)
    (hstep : step cfg s action = some (s', events)) (hc : ClaimedBy s' task ids) :
    .called task ∉ events := by
  have hlt : task < s.started := by
    rcases claims_step hinv hstep hc with ⟨phase, hphase, -⟩ | ⟨hlt, -⟩
    · exact hinv.lt_started hphase
    · exact hlt
  intro hmem
  cases emits_step hinv honTime hstep <;> simp only [mem_cons, not_mem_nil] at hmem <;> grind

/-- The account grows by one event that satisfies the three properties. -/
theorem Accounted.concat {event : Event} (h : Accounted late initial history s)
    (hmark : lastPersisted initial (history ++ [event]) = s'.shared.watermark)
    (hapart : ∀ task task' ids ids', task ≠ task' → ClaimedBy s' task ids →
      ClaimedBy s' task' ids' → Apart ids ids') (hunreturned : ∀ task ids, ClaimedBy s' task ids →
      ∀ task' ids', .returned task' ids' ∈ history ++ [event] → Apart ids ids')
    (hpromised : late = false → ∀ task ids next, ClaimedBy s' task ids →
      ReservedBefore (history ++ [event]) task next → next ≤ ids.start)
    (hfresh : ReturnsFresh history event) (hbelow : ReturnsBelow initial history event)
    (hreserved : late = false → ReturnsReserved history event) :
    Accounted late initial (history ++ [event]) s' :=
  ⟨hmark, hapart, hunreturned, hpromised, eachEvent_concat h.fresh hfresh,
    eachEvent_concat h.below hbelow,
    fun hlate => eachEvent_concat (h.reserved hlate) (hreserved hlate)⟩

theorem lastPersisted_concat (initial : Nat) (history : List Event) (event : Event) :
    lastPersisted initial (history ++ [event]) = match event with
      | .persisted watermark => watermark
      | _ => lastPersisted initial history := by
  rw [lastPersisted, foldl_append]
  rfl

/-- **One action extends the account.** -/
theorem accounted_step (h : Accounted late initial history s)
    (hinv : Inv late history s) (honTime : late = false → OnTime action)
    (hstep : step cfg s action = some (s', events)) :
    Accounted late initial (history ++ events) s' := by
  obtain ⟨hapart, hunreturned, hkept⟩ := h.claims hinv hstep
  have hpromised : late = false → ∀ task ids next, ClaimedBy s' task ids →
      ReservedBefore (history ++ events) task next → next ≤ ids.start :=
    fun hlate task ids next hc =>
      hkept hlate task ids next hc (claimed_not_called hinv honTime hstep hc)
  -- An event that returns nothing leaves the returned ranges as they were.
  have hsilent : ∀ event : Event, (∀ task ids, event ≠ .returned task ids) →
      ∀ task ids, ClaimedBy s' task ids →
        ∀ task' ids', .returned task' ids' ∈ history ++ [event] → Apart ids ids' := by
    intro event hne task ids hc task' ids' hmem
    rcases mem_append.mp hmem with hold | hnew
    · exact hunreturned task ids hc task' ids' hold
    · exact absurd (mem_singleton.mp hnew).symm (hne task' ids')
  cases emits_step hinv honTime hstep with
  | silent hmark =>
    rw [append_nil] at hpromised ⊢
    exact ⟨h.mark.trans hmark.symm, hapart, hunreturned, hpromised, h.fresh, h.below, h.reserved⟩
  | called hmark | reserved hmark =>
    refine h.concat ?_ hapart (hsilent _ nofun) hpromised trivial trivial fun _ => trivial
    rw [lastPersisted_concat]
    exact h.mark.trans hmark.symm
  | persisted hmark =>
    refine h.concat ?_ hapart (hsilent _ nofun) hpromised trivial trivial fun _ => trivial
    rw [lastPersisted_concat]
    exact hmark.symm
  | @returned task ids hmark hclaim hstop hgone =>
    refine h.concat ?_ hapart ?_ hpromised ?_ ?_ ?_
    · rw [lastPersisted_concat]
      exact h.mark.trans hmark.symm
    · intro other ids' hc task' ids'' hmem
      rcases mem_append.mp hmem with hold | hnew
      · exact hunreturned other ids' hc task' ids'' hold
      · cases mem_singleton.mp hnew
        have hne : other ≠ task := by
          rintro rfl
          exact hgone ids' hc
        rcases claims_step hinv hstep hc with hold | ⟨-, hstart, -⟩
        · exact h.apart other task ids' ids hne hold hclaim
        · have hle := hclaim.stop_le hinv
          exact apart_of_le (by omega)
    · intro id hid task' ids' hmem
      exact h.unreturned task ids hclaim task' ids' hmem id hid
    · rintro id ⟨-, hlt⟩
      rw [h.mark]
      omega
    · rintro hlate next hbefore id ⟨hge, -⟩
      exact le_trans (h.promised hlate task ids next hclaim hbefore) hge
  | emptyBatch hmark =>
    -- The empty batch returns no ID, so nothing is owed for it.
    have hempty : ∀ id, id ∉ (⟨0, 0⟩ : IdRange) := fun id hmem => absurd hmem.2 (Nat.not_lt_zero _)
    have hsplit : history ++ [.called s.started, .returned s.started ⟨0, 0⟩] =
        (history ++ [.called s.started]) ++ [.returned s.started ⟨0, 0⟩] := by simp
    rw [hsplit] at hpromised ⊢
    refine ⟨?_, hapart, ?_, hpromised, ?_, ?_, ?_⟩
    · rw [lastPersisted_concat, lastPersisted_concat]
      exact h.mark.trans hmark.symm
    · intro task ids hc task' ids' hmem
      rcases mem_append.mp hmem with hold | hnew
      · exact hsilent (.called s.started) nofun task ids hc task' ids' hold
      · cases mem_singleton.mp hnew
        exact fun id _ => hempty id
    · exact eachEvent_concat (eachEvent_concat h.fresh trivial)
        (fun id hid => absurd hid (hempty id))
    · exact eachEvent_concat (eachEvent_concat h.below trivial)
        (fun id hid => absurd hid (hempty id))
    · exact fun hlate => eachEvent_concat (eachEvent_concat (h.reserved hlate) trivial)
        (fun _ _ id hid => absurd hid (hempty id))

/-- The account of an allocator over any store. -/
theorem accounted_opened (stored : Option Bytes) :
    Accounted late (State.opened stored).shared.watermark [] (.opened stored) := by
  have hnone : ∀ task ids, ¬ ClaimedBy (.opened stored) task ids := by
    rintro task ids ⟨phase, hphase, -⟩
    cases hphase
  exact ⟨rfl, fun task _ ids _ _ hc => absurd hc (hnone task ids),
    fun task ids hc => absurd hc (hnone task ids),
    fun _ task ids _ hc => absurd hc (hnone task ids), eachEvent_nil, eachEvent_nil,
    fun _ => eachEvent_nil⟩

end Steps

end HelixDb.IdAllocator
