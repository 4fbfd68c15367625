/-
  HelixDb.Backlog.Counting

  **EVERY OPERATION IS COUNTED ONCE**, whichever of its producer, publication
  and a reconciliation tells the ledger first.

  The invariant is a table over one operation: what is true of it, which charge
  the ledger holds of it, and what has been counted.

    • `worldOk_step` — every step keeps the table;
    • `operations_counted_once` — the counts of every operation in every run;
    • `charges_held_while_needed` — when capacity is released.
-/
import HelixDb.Backlog.World
import HelixDb.Backlog.Effects

namespace HelixDb.Backlog

open HelixDb.Lib HelixDb.Keys HelixDb.Lifecycle BacklogState List
open HelixDb.Queue.QueuedOperationId (one_clear)
open World (update allOps add step start machine)
open Prod (fst snd)

/-! ## §1. The table of one operation. -/

/-- The charge's acknowledgement outcome is unknown. -/
def ChargeState.isUncertainAck : ChargeState → Bool
  | .uncertain (.acknowledgement _ _) _ => true
  | _ => false

/-- What each charge state says of the operation and its counts.  An operation contributes to
    `committed + discovered` when its producer has resolved or a reconciliation proved it. -/
def StateOk (facts : OpFacts) (v : View) : ChargeState → Prop
  | .reserved => facts.resolved = false ∧ v.committed = 0 ∧ v.discovered = 0
  | .durable (.committed _) => facts.resolved = true ∧ v.committed = 1 ∧ v.discovered = 0
  | .uncertain (.acknowledgement (.committed _) _) _ =>
    facts.enqueue = .durable ∧ facts.resolved = true ∧ v.committed = 1 ∧ v.discovered = 0
  | .durable .discovered | .uncertain (.acknowledgement .discovered _) _ =>
    facts.enqueue = .durable ∧ v.committed + v.discovered = facts.resolved.toNat
  | .uncertain .enqueue _ => facts.resolved = true ∧ v.committed = 0 ∧ v.discovered = 0

/-- A retained operation. -/
structure ChargedOk (facts : OpFacts) (charge : Charge) (v : View) : Prop where
  target : charge.target = facts.target
  unacknowledged : v.acknowledged = 0
  state : StateOk facts v charge.state
  unconfirmed : facts.confirmed = false
  /-- An acknowledgement may be durable only while publication or the ledger knows of it. -/
  known : facts.acked = true ∨ facts.inFlight = true →
    facts.attempt = true ∨ charge.state.isUncertainAck = true

/-- A released operation: acknowledged, or never durable. -/
def ReleasedOk (facts : OpFacts) (v : View) : Prop :=
  (facts.enqueue = .durable ∧ facts.acked = true ∧ facts.attempt = false ∧ v.acknowledged = 1 ∧
      v.committed + v.discovered = facts.resolved.toNat) ∨
    (facts.enqueue = .dead ∧ facts.resolved = true ∧ facts.confirmed = false ∧
      v.acknowledged = 0 ∧ v.committed = 0 ∧ v.discovered = 0)

/-- Only a durable operation is acknowledged. -/
def FactsOk (facts : OpFacts) : Prop :=
  facts.acked = true ∨ facts.inFlight = true ∨ facts.attempt = true → facts.enqueue = .durable

/-- **The table.** -/
def IdOk (facts : Option OpFacts) (v : View) : Prop :=
  match facts, v.charge with
  | none, none => v.committed = 0 ∧ v.discovered = 0 ∧ v.acknowledged = 0
  | none, some _ => False
  | some facts, some charge => FactsOk facts ∧ ChargedOk facts charge v
  | some facts, none => FactsOk facts ∧ ReleasedOk facts v

/-- What a reconciliation has proved of an uncertain charge it settles. -/
def Settles (facts : OpFacts) (commit : UncertainCommit) (present : Bool) : Prop :=
  match commit with
  | .enqueue => facts.enqueue = if present then .durable else .dead
  | .acknowledgement _ _ => facts.acked = !present ∧ (present = true → facts.inFlight = false)

/-- What a read of the operation's queue under way says of it: a charge marked before the ticket is
    decided, and the read shows how. -/
structure ReadOk (ticket : Nat) (present : List QueuedOperationId) (id : QueuedOperationId)
    (facts : OpFacts) (v : View) : Prop where
  noAttempt : facts.attempt = false
  durable : id ∈ present → facts.enqueue = .durable ∧ v.charge.isSome = true
  settled : ∀ charge commit marked, v.charge = some charge →
    charge.state = .uncertain commit marked → marked < ticket →
      Settles facts commit (decide (id ∈ present))

/-! ## §2. The invariant of the world. -/

/-- The invariant of the runs. -/
structure WorldOk (w : World) : Prop where
  sound : IndexSound w.ledger
  tied : Tied w.ledger
  clock : w.ledger.reconcileClock ≤ U64_MAX
  ids : ∀ id, IdOk (w.ops.lookup id) (w.ledger.view id)
  reads : ∀ target ticket present, w.reads.lookup target = some (ticket, present) →
    ticket ≤ w.ledger.reconcileClock ∧
      (∀ operation ∈ present, ∃ facts, w.ops.lookup operation.1 = some facts ∧
        facts.target = target) ∧
      ∀ id facts, w.ops.lookup id = some facts → facts.target = target →
        ReadOk ticket (present.map fst) id facts (w.ledger.view id)

/-! ## §3. How the table moves. -/

variable {facts facts' : OpFacts} {v v' : View} {commit : UncertainCommit} {charge : Charge}

section Table

variable {facts : OpFacts} {v : View}

theorem idOk_some_charged (hcharge : v.charge = some charge) :
    IdOk (some facts) v ↔ FactsOk facts ∧ ChargedOk facts charge v := by
  simp only [IdOk, hcharge]

theorem idOk_some_released (hcharge : v.charge = none) :
    IdOk (some facts) v ↔ FactsOk facts ∧ ReleasedOk facts v := by
  simp only [IdOk, hcharge]

/-- A charge that moves stays in the table under its new state. -/
theorem IdOk.of_move {next : ChargeState → ChargeState}
    (hcharge : v.charge = some charge) (hv : v'.charge = v.charge.map (·.move next))
    (hfacts : FactsOk facts) (hcharged : ChargedOk facts (charge.move next) v') :
    IdOk (some facts) v' := by
  rw [hcharge] at hv
  exact (idOk_some_charged hv).mpr ⟨hfacts, hcharged⟩

/-- A released operation whose enqueue is durable was acknowledged. -/
theorem ReleasedOk.of_durable (h : ReleasedOk facts v) (hdurable : facts.enqueue = .durable) :
    facts.acked = true ∧ facts.attempt = false ∧ v.acknowledged = 1 ∧
      v.committed + v.discovered = facts.resolved.toNat := by
  rcases h with ⟨-, hreleased⟩ | ⟨hdead, -⟩
  · exact hreleased
  · simp [hdurable] at hdead

theorem IdOk.factsOk (h : IdOk (some facts) v) : FactsOk facts := by
  cases hcharge : v.charge with
  | none => exact ((idOk_some_released hcharge).mp h).1
  | some charge => exact ((idOk_some_charged hcharge).mp h).1

/-- The charge state reads only whether the enqueue is durable and the producer resolved. -/
theorem StateOk.congr {state : ChargeState} (h : StateOk facts v state)
    (hresolved : facts'.resolved = facts.resolved)
    (hdurable : facts.enqueue = .durable → facts'.enqueue = .durable) : StateOk facts' v state := by
  rcases state with _ | (_ | _) | ⟨_ | ⟨_ | _, _⟩, _⟩ <;> simp_all [StateOk]

section

variable (h : IdOk (some facts) v)
include h

/-- The parts of the table a change of facts alone must keep. -/
theorem IdOk.of_facts (hfacts : FactsOk facts') (hsame : facts'.target = facts.target ∧
      facts'.resolved = facts.resolved ∧ facts'.confirmed = facts.confirmed)
    (hdurable : facts.enqueue = .durable → facts'.enqueue = .durable)
    (hknown : ∀ charge, ChargedOk facts charge v → facts'.acked = true ∨ facts'.inFlight = true →
      facts'.attempt = true ∨ charge.state.isUncertainAck = true)
    (hreleased : ReleasedOk facts v → ReleasedOk facts' v) : IdOk (some facts') v := by
  obtain ⟨htarget, hresolved, hconfirmed⟩ := hsame
  cases hcharge : v.charge with
  | none =>
    rw [idOk_some_released hcharge] at h ⊢
    exact ⟨hfacts, hreleased h.2⟩
  | some charge =>
    rw [idOk_some_charged hcharge] at h ⊢
    obtain ⟨-, hcharged⟩ := h
    exact ⟨hfacts, hcharged.target.trans htarget.symm, hcharged.unacknowledged,
      hcharged.state.congr hresolved hdurable, hconfirmed.trans hcharged.unconfirmed,
      hknown charge hcharged⟩

/-- An enqueue that is decided: what was pending was neither released nor known durable. -/
theorem IdOk.decide_enqueue (hpending : facts.enqueue = .pending) (enqueue : EnqueueFacts) :
    IdOk (some { facts with enqueue := enqueue }) v := by
  refine h.of_facts (fun hack => ?_) ⟨rfl, rfl, rfl⟩ (fun hdurable => ?_)
    (fun charge hcharged => hcharged.known) ?_
  · simp [h.factsOk hack] at hpending
  · simp [hdurable] at hpending
  · rintro (⟨hdurable, -⟩ | ⟨hdead, -⟩)
    · simp [hdurable] at hpending
    · simp [hdead] at hpending

theorem IdOk.attempt (hdurable : facts.enqueue = .durable) (hnot : facts.acked = false) :
    IdOk (some { facts with attempt := true, inFlight := true }) v := by
  refine h.of_facts (fun _ => hdurable) ⟨rfl, rfl, rfl⟩ id (fun _ _ _ => .inl rfl) ?_
  intro hreleased
  simp [(hreleased.of_durable hdurable).1] at hnot

theorem IdOk.landAck (hflight : facts.inFlight = true) :
    IdOk (some { facts with inFlight := false, acked := true }) v := by
  have hdurable := h.factsOk (.inr (.inl hflight))
  refine h.of_facts (fun _ => hdurable) ⟨rfl, rfl, rfl⟩ id
    (fun _ hcharged _ => hcharged.known (.inr hflight)) ?_
  intro hreleased
  exact .inl ⟨hdurable, rfl, (hreleased.of_durable hdurable).2⟩

theorem IdOk.loseAck : IdOk (some { facts with inFlight := false }) v := by
  refine h.of_facts ?_ ⟨rfl, rfl, rfl⟩ id ?_ id
  · rintro (hacked | hflight | hattempt)
    · exact h.factsOk (.inl hacked)
    · cases hflight
    · exact h.factsOk (.inr (.inr hattempt))
  · rintro charge hcharged (hacked | hflight)
    · exact hcharged.known (.inl hacked)
    · cases hflight

theorem IdOk.abandon (hattempt : facts.attempt = true) (hnot : facts.acked = false) :
    IdOk (some { facts with attempt := false, inFlight := false }) v := by
  have hdurable := h.factsOk (.inr (.inr hattempt))
  refine h.of_facts (fun _ => hdurable) ⟨rfl, rfl, rfl⟩ id ?_ ?_
  · rintro charge hcharged (hacked | hflight)
    · simp [hnot] at hacked
    · cases hflight
  · intro hreleased
    simp [(hreleased.of_durable hdurable).1] at hnot

/-- An operation publication is acknowledging is retained. -/
theorem IdOk.charged_of_attempt (hattempt : facts.attempt = true) :
    ∃ charge, v.charge = some charge ∧ ChargedOk facts charge v := by
  have hdurable := h.factsOk (.inr (.inr hattempt))
  cases hcharge : v.charge with
  | some charge => exact ⟨charge, rfl, ((idOk_some_charged hcharge).mp h).2⟩
  | none =>
    simp [(((idOk_some_released hcharge).mp h).2.of_durable hdurable).2.1] at hattempt

/-- **A durable acknowledgement is counted once**, and proves an uncertain enqueue. -/
theorem IdOk.acknowledge (hattempt : facts.attempt = true)
    (hacked : facts.acked = true) : IdOk (some facts.confirm) v.acknowledge := by
  have hdurable := h.factsOk (.inl hacked)
  obtain ⟨⟨target, entity, charged, state⟩, hcharge, hcharged⟩ := h.charged_of_attempt hattempt
  have hnone : v.acknowledge.charge = none := by
    rw [View.acknowledge, hcharge]
  rw [idOk_some_released hnone]
  refine ⟨fun _ => hdurable, .inl ⟨hdurable, hacked, rfl, ?_, ?_⟩⟩
  · rw [View.acknowledge, hcharge]
    exact congrArg (· + 1) hcharged.unacknowledged
  · have hstate := hcharged.state
    rw [View.acknowledge, hcharge]
    rcases state with _ | (_ | _) | ⟨_ | ⟨_ | _, _⟩, _⟩ <;>
      simp_all [StateOk, ChargeState.isUncertainEnqueue, OpFacts.confirm]

/-- **An acknowledgement without an outcome** leaves the charge uncertain. -/
theorem IdOk.mark (hattempt : facts.attempt = true) (marked : Nat)
    (returned : Instant) : IdOk (some facts.report) (v.mark marked returned) := by
  have hdurable := h.factsOk (.inr (.inr hattempt))
  obtain ⟨⟨target, entity, charged, state⟩, hcharge, hcharged⟩ := h.charged_of_attempt hattempt
  refine IdOk.of_move hcharge rfl (fun _ => hdurable) ⟨hcharged.target, hcharged.unacknowledged, ?_,
    hcharged.unconfirmed, fun _ => .inr rfl⟩
  have hstate := hcharged.state
  rcases state with _ | (_ | _) | ⟨_ | ⟨_ | _, _⟩, _⟩ <;>
    simp_all [StateOk, View.mark, View.move, Charge.move, uncertainAcknowledgement,
      ChargeState.isUncertainEnqueue, OpFacts.report]

/-- **The producer's outcome is counted once.** -/
theorem IdOk.resolve {outcome : ReservationOutcome}
    (hcan : facts.canResolve outcome = true) (now : Instant) (marked : Nat) :
    IdOk (some (facts.resolve outcome)) (v.resolve outcome now marked) := by
  simp only [OpFacts.canResolve, Bool.and_eq_true, Bool.not_eq_true', Bool.or_eq_true,
    decide_eq_true_eq] at hcan
  obtain ⟨hunresolved, hconsistent⟩ := hcan
  have hfacts := h.factsOk
  cases hcharge : v.charge with
  | none =>
    -- Publication acknowledged it before its producer returned.
    rw [idOk_some_released hcharge] at h
    rcases h.2 with ⟨hdurable, hacked, hattempt, hcount, hsum⟩ | ⟨-, hresolved, -⟩
    · cases outcome <;>
        simp_all [IdOk, View.resolve, View.move, ReleasedOk, FactsOk, OpFacts.resolve]
    · simp [hunresolved] at hresolved
  | some charge =>
    rw [idOk_some_charged hcharge] at h
    obtain ⟨-, htarget, hcount, hstate, hconfirmed, hknown⟩ := h
    obtain ⟨target, entity, charged, state⟩ := charge
    cases outcome with
    | committed | uncertain =>
      refine IdOk.of_move hcharge rfl hfacts ⟨htarget, hcount, ?_, hconfirmed, ?_⟩
      · rcases state with _ | (_ | _) | ⟨_ | ⟨_ | _, _⟩, _⟩ <;>
          simp_all [StateOk, View.resolve, View.move, settleReserved, OpFacts.resolve, Charge.move]
      · intro hack
        rcases hknown hack with hattempt | huncertain
        · exact .inl hattempt
        · refine .inr ?_
          rcases state with _ | _ | _ <;> first | cases huncertain | exact huncertain
    | aborted =>
      have hnone : (v.resolve .aborted now marked).charge = none := rfl
      rw [idOk_some_released hnone]
      rcases state with _ | (_ | _) | ⟨_ | ⟨_ | _, _⟩, _⟩ <;>
        simp_all [StateOk, ReleasedOk, FactsOk, View.resolve, View.release, OpFacts.resolve]

end

/-- **A settled charge is counted as what was proved.** -/
theorem IdOk.settle (h : IdOk (some facts) v)
    {marked : Nat} {present : Bool} (hcharge : v.charge = some charge)
    (huncertain : charge.state = .uncertain commit marked)
    (hsettles : Settles facts commit present) (hattempt : facts.attempt = false) :
    IdOk (some facts) (v.settle commit present) := by
  rw [idOk_some_charged hcharge] at h
  obtain ⟨hfacts, htarget, hcount, hstate, hconfirmed, hknown⟩ := h
  obtain ⟨target, entity, charged, state⟩ := charge
  dsimp only at huncertain
  subst huncertain
  cases commit with
  | enqueue =>
    cases present with
    | true =>
      refine IdOk.of_move hcharge rfl hfacts ⟨htarget, hcount, ?_, hconfirmed, ?_⟩
      · simp_all [StateOk, Settles, View.settle, View.move, Charge.move]
      · intro hack
        rcases hknown hack with hopen | hack
        · exact .inl hopen
        · cases hack
    | false =>
      have hnone : (v.settle .enqueue false).charge = none := rfl
      rw [idOk_some_released hnone]
      simp_all [StateOk, Settles, ReleasedOk, View.settle, View.release]
  | acknowledgement origin returned =>
    cases present with
    | true =>
      refine IdOk.of_move hcharge rfl hfacts ⟨htarget, hcount, ?_, hconfirmed, ?_⟩
      · cases origin <;> simp_all [StateOk, View.settle, View.move, Charge.move]
      · simp_all [Settles]
    | false =>
      have hnone : (v.settle (.acknowledgement origin returned) false).charge = none := by
        simp only [View.settle, View.acknowledge, hcharge]
      rw [idOk_some_released hnone]
      cases origin <;> simp_all [StateOk, Settles, ReleasedOk, FactsOk, View.settle,
        View.acknowledge, ChargeState.isUncertainEnqueue]

/-! ## §4. How a read under way moves. -/

variable {ticket : Nat} {present : List QueuedOperationId} {id : QueuedOperationId}

section

variable (h : ReadOk ticket present id facts v)
include h

/-- What was pending is neither read nor decided by the flush. -/
theorem ReadOk.decide_enqueue (hpending : facts.enqueue = .pending) (enqueue : EnqueueFacts) :
    ReadOk ticket present id { facts with enqueue := enqueue } v where
  noAttempt := h.noAttempt
  durable hmem := by
    simp [(h.durable hmem).1] at hpending
  settled charge commit marked hcharge hstate hlt := by
    have hsettles := h.settled charge commit marked hcharge hstate hlt
    cases commit with
    | enqueue =>
      rw [Settles, hpending] at hsettles
      split_ifs at hsettles
    | acknowledgement => exact hsettles

/-- An acknowledgement that lands was not decided by the flush. -/
theorem ReadOk.landAck (hflight : facts.inFlight = true) :
    ReadOk ticket present id { facts with inFlight := false, acked := true } v where
  noAttempt := h.noAttempt
  durable := h.durable
  settled charge commit marked hcharge hstate hlt := by
    have hsettles := h.settled charge commit marked hcharge hstate hlt
    cases commit with
    | enqueue => exact hsettles
    | acknowledgement => simp_all [Settles]

theorem ReadOk.loseAck : ReadOk ticket present id { facts with inFlight := false } v where
  noAttempt := h.noAttempt
  durable := h.durable
  settled charge commit marked hcharge hstate hlt := by
    have hsettles := h.settled charge commit marked hcharge hstate hlt
    cases commit with
    | enqueue => exact hsettles
    | acknowledgement => exact ⟨hsettles.1, fun _ => rfl⟩

end

theorem settleReserved_eq {settled state state' : ChargeState}
    (h : settleReserved settled state = state') : state = state' ∨ state' = settled := by
  cases state with
  | reserved => exact .inr h.symm
  | durable origin => exact .inl h
  | uncertain commit marked => exact .inl h

/-- A charge moved by a returned commit is uncertain as before, or since the return. -/
theorem ReadOk.settleReserved (h : ReadOk ticket present id facts v) (settled : ChargeState)
    (hsettled : ∀ commit marked, settled = .uncertain commit marked → ticket ≤ marked)
    (hv : v'.charge = v.charge.map (·.move (settleReserved settled))) :
    ReadOk ticket present id { facts with resolved := true } v' where
  noAttempt := h.noAttempt
  durable hmem := by
    rw [hv, Option.isSome_map]
    exact h.durable hmem
  settled charge commit marked hcharge hstate hlt := by
    rw [hv] at hcharge
    obtain ⟨old, hold, rfl⟩ := Option.map_eq_some_iff.mp hcharge
    rcases settleReserved_eq hstate with hsame | hnew
    · exact h.settled old commit marked hold hsame hlt
    · exact absurd (hsettled commit marked hnew.symm) (Nat.not_le.mpr hlt)

/-- A producer's outcome is marked no earlier than the read's ticket. -/
theorem ReadOk.resolve (h : ReadOk ticket present id facts v) {outcome : ReservationOutcome}
    (hcan : facts.canResolve outcome = true) (now : Instant) {marked : Nat}
    (hticket : ticket ≤ marked) :
    ReadOk ticket present id (facts.resolve outcome) (v.resolve outcome now marked) := by
  cases outcome with
  | committed => exact h.settleReserved (.durable (.committed now)) (by simp) rfl
  | aborted =>
    simp only [OpFacts.canResolve, Bool.and_eq_true, Bool.or_eq_true, decide_eq_true_eq, ne_eq,
      not_true_eq_false, false_or] at hcan
    exact ⟨h.noAttempt, fun hmem => absurd (h.durable hmem).1 hcan.2, nofun⟩
  | uncertain =>
    refine h.settleReserved (.uncertain .enqueue marked) ?_ rfl
    intro commit m heq
    cases heq
    exact hticket

theorem View.settle_durable {found : Bool}
    (h : (v.settle commit found).charge = some charge) :
    ∃ origin, charge.state = .durable origin := by
  rcases commit with _ | ⟨origin, returned⟩ <;> cases found
  case enqueue.true =>
    obtain ⟨old, -, rfl⟩ := Option.map_eq_some_iff.mp h
    exact ⟨.discovered, rfl⟩
  case enqueue.false => cases h
  case acknowledgement.true =>
    obtain ⟨old, -, rfl⟩ := Option.map_eq_some_iff.mp h
    exact ⟨origin, rfl⟩
  case acknowledgement.false =>
    simp only [View.settle, View.acknowledge] at h
    split at h
    case h_1 hnone =>
      simp [hnone] at h
    case h_2 => cases h

/-- A settled charge is no longer uncertain, and what the read shows stays retained. -/
theorem ReadOk.settle (h : ReadOk ticket present id facts v)
    {found : Bool} (hfound : id ∈ present → found = true) :
    ReadOk ticket present id facts (v.settle commit found) := by
  refine ⟨h.noAttempt, ?_, ?_⟩
  · intro hmem
    obtain ⟨hdurable, hsome⟩ := h.durable hmem
    refine ⟨hdurable, ?_⟩
    rw [hfound hmem]
    cases commit <;> simpa [View.settle, View.move] using hsome
  · intro charge commit marked hcharge hstate
    obtain ⟨origin, hdurable⟩ := View.settle_durable hcharge
    simp [hdurable] at hstate

end Table

/-! ## §5. Steps on one operation. -/

variable {f : OpFacts → OpFacts} {p : OpFacts → Bool}

section One

variable {w : World} {ledger : BacklogState} {id : QueuedOperationId} {v : View}
  {facts : OpFacts} {ops : FinMap QueuedOperationId OpFacts}

/-- **A step that changes one operation keeps the invariant** when it keeps the operation's row. -/
theorem WorldOk.one (h : WorldOk w) (hsteps : Steps w.ledger ledger id v)
    (hops : ∀ other, ops.lookup other = if other = id then some facts else w.ops.lookup other)
    (htarget : ∀ old, w.ops.lookup id = some old → facts.target = old.target)
    (hid : IdOk (some facts) v)
    (hread : ∀ ticket present, w.reads.lookup facts.target = some (ticket, present) →
      ReadOk ticket (present.map fst) id facts v) :
    WorldOk { w with ledger := ledger, ops := ops } where
  sound := hsteps.sound
  tied := hsteps.tied
  clock := by
    rw [hsteps.clock]
    exact h.clock
  ids other := by
    rw [hops, hsteps.views]
    split_ifs with hother
    · exact hid
    · exact h.ids other
  reads target ticket present hlookup := by
    obtain ⟨hclock, hpresent, hrows⟩ := h.reads target ticket present hlookup
    refine ⟨by rw [hsteps.clock]; exact hclock, ?_, ?_⟩
    · intro operation hmem
      obtain ⟨old, hold, holdTarget⟩ := hpresent operation hmem
      rw [hops]
      split_ifs with hother
      · rw [hother] at hold
        exact ⟨facts, rfl, (htarget old hold).trans holdTarget⟩
      · exact ⟨old, hold, holdTarget⟩
    · intro other otherFacts hother hotherTarget
      rw [hops] at hother
      rw [hsteps.views]
      split_ifs at hother ⊢ with hsame
      · cases hother
        rw [hsame]
        exact hread ticket present (hotherTarget ▸ hlookup)
      · exact hrows other otherFacts hother hotherTarget

theorem lookup_update_single {old : OpFacts}
    (hold : w.ops.lookup id = some old) (other : QueuedOperationId) :
    (update w.ops [id] f).lookup other =
      if other = id then some (f old) else w.ops.lookup other := by
  simp only [update, foldl_cons, foldl_nil, hold]
  exact FinMap.lookup_insert_eq _ _ _ _

/-- **A change of one operation's facts** keeps the invariant when it keeps the row. -/
theorem WorldOk.change (h : WorldOk w) {w' : World}
    (hstep : w.change id p f = some w') (htarget : ∀ facts, (f facts).target = facts.target)
    (hid : ∀ {facts v}, IdOk (some facts) v → p facts = true → IdOk (some (f facts)) v)
    (hread : ∀ {facts v ticket present}, ReadOk ticket (present.map fst) id facts v →
      p facts = true → w.reads.lookup facts.target = some (ticket, present) →
      ReadOk ticket (present.map fst) id (f facts) v) : WorldOk w' := by
  unfold World.change allOps at hstep
  split_ifs at hstep with hall
  cases hstep
  simp only [all_cons, all_nil, Bool.and_true, Option.any_eq_true] at hall
  obtain ⟨old, hold, hp⟩ := hall
  have hrow := h.ids id
  rw [hold] at hrow
  -- a change of facts is a step of the ledger that moves nothing
  have hsteps : Steps w.ledger w.ledger id (w.ledger.view id) :=
    { admissions := le_rfl, issued := fun hs => hs, sound := h.sound, tied := h.tied, clock := rfl
      views := fun other => by by_cases hother : other = id <;> simp [hother] }
  refine h.one hsteps (lookup_update_single hold) ?_ (hid hrow hp) ?_
  · intro old' hold'
    rw [hold] at hold'
    cases hold'
    exact htarget old
  · intro ticket present hlookup
    rw [htarget] at hlookup
    exact hread ((h.reads _ ticket present hlookup).2.2 id old hold rfl) hp hlookup

end One

/-! ## §6. Steps on lists of operations. -/

variable {ids : List QueuedOperationId}

section Lists

variable {w : World} {ledger : BacklogState}

variable {id : QueuedOperationId}

theorem lookup_update_of_notMem {ops : FinMap QueuedOperationId OpFacts}
    (h : id ∉ ids) : (update ops ids f).lookup id = ops.lookup id := by
  induction ids generalizing ops with
  | nil => rfl
  | cons first rest ih =>
    simp only [mem_cons, not_or] at h
    simp only [update, foldl_cons]
    refine (ih h.2).trans ?_
    cases ops.lookup first with
    | none => rfl
    | some facts => exact (FinMap.lookup_insert_eq _ _ _ _).trans (if_neg h.1)

/-- **A call over distinct operations** keeps the invariant when each of its steps keeps the row of
    its operation. -/
theorem WorldOk.call (h : WorldOk w) {one : BacklogState → QueuedOperationId → Ledger BacklogState}
    {g : View → View} (hdistinct : ids.Nodup)
    (hall : ∀ id ∈ ids, ∃ facts, w.ops.lookup id = some facts ∧ p facts = true)
    (hfold : ids.foldlM one w.ledger = .ok ledger)
    (htarget : ∀ facts, (f facts).target = facts.target)
    (hone : ∀ {s id t}, one s id = .ok t → IndexSound s → Tied s → Steps s t id (g (s.view id)))
    (hid : ∀ {facts v}, IdOk (some facts) v → p facts = true → IdOk (some (f facts)) (g v))
    (hread : ∀ {facts v id ticket present}, ReadOk ticket present id facts v → p facts = true →
      ticket ≤ w.ledger.reconcileClock → ReadOk ticket present id (f facts) (g v)) :
    WorldOk { w with ledger := ledger, ops := update w.ops ids f } := by
  refine And.left (foldlM_invariant (fun done s => WorldOk { w with
    ledger := s, ops := update w.ops done f } ∧
      s.reconcileClock = w.ledger.reconcileClock) ⟨h, rfl⟩ ?_ hfold)
  rintro done id rest s t hids ⟨hok, hclock⟩ hstep
  obtain ⟨facts, hfacts, hp⟩ := hall id (by simp [hids])
  have hlookup : (update w.ops done f).lookup id = some facts := by
    rw [lookup_update_of_notMem, hfacts]
    simpa using notMem_of_nodup (by simpa : (ids.map fun id => id).Nodup) hids
  have hsteps := hone hstep hok.sound hok.tied
  have hrow := hok.ids id
  rw [show (update w.ops done f).lookup id = some facts from hlookup] at hrow
  refine ⟨?_, hsteps.clock.trans hclock⟩
  rw [update, foldl_append]
  refine hok.one hsteps (lookup_update_single
    (w := { w with ledger := s, ops := update w.ops done f }) hlookup) ?_ (hid hrow hp) ?_
  · intro old hold
    rw [show (update w.ops done f).lookup id = some facts from hlookup] at hold
    cases hold
    exact htarget facts
  · intro ticket present hreads
    rw [htarget] at hreads
    obtain ⟨hle, -, hrows⟩ := hok.reads _ ticket present hreads
    exact hread (hrows id facts hlookup rfl) hp (hclock ▸ hle)

theorem ledgerStep_some {result : Ledger BacklogState} {w' : World}
    (h : w.ledgerStep ids p f result = some w') :
    ids.Nodup ∧ (∀ id ∈ ids, ∃ facts, w.ops.lookup id = some facts ∧ p facts = true) ∧
      ∃ ledger, result = .ok ledger ∧
        w' = { w with ledger := ledger, ops := update w.ops ids f } := by
  unfold World.ledgerStep at h
  split_ifs at h with hguard
  split at h
  case h_2 => cases h
  case h_1 ledger =>
    cases h
    simp only [allOps, all_eq_true, Option.any_eq_true] at hguard
    exact ⟨hguard.1, hguard.2, ledger, rfl, rfl⟩

/-- **A new operation** keeps the invariant. -/
theorem WorldOk.enter (h : WorldOk w)
    (hfresh : w.ops.lookup id = none) (hsteps : Steps w.ledger ledger id v)
    (hid : IdOk (some facts) v) (hattempt : facts.attempt = false)
    (hcertain : ∀ charge, v.charge = some charge → charge.state.isUncertain = false) :
    WorldOk { w with ledger := ledger, ops := w.ops.insert id facts } := by
  refine h.one hsteps (FinMap.lookup_insert_eq _ _ · _) ?_ hid ?_
  · intro old hold
    simp [hfresh] at hold
  · intro ticket present hreads
    obtain ⟨-, hpresent, -⟩ := h.reads _ ticket present hreads
    refine ⟨hattempt, ?_, ?_⟩
    · intro hmem
      obtain ⟨operation, hoperation, rfl⟩ := mem_map.mp hmem
      obtain ⟨old, hold, -⟩ := hpresent operation hoperation
      simp [hfresh] at hold
    · intro charge commit marked hcharge hstate
      have hnot := hcertain charge hcharge
      rw [hstate] at hnot
      cases hnot

/-- An unknown operation has no charge and no counts. -/
theorem WorldOk.view_of_fresh (h : WorldOk w)
    (hfresh : w.ops.lookup id = none) : w.ledger.view id = ⟨none, 0, 0, 0⟩ := by
  have hrow := h.ids id
  rw [hfresh] at hrow
  cases hcharge : (w.ledger.view id).charge with
  | some charge => simp [IdOk, hcharge] at hrow
  | none =>
    simp only [IdOk, hcharge] at hrow
    exact View.ext hcharge hrow.1 hrow.2.1 hrow.2.2

theorem lookup_add_of_notMem {ops : FinMap QueuedOperationId OpFacts}
    {new : List (QueuedOperationId × OpFacts)}
    (h : id ∉ new.map fst) : (add ops new).lookup id = ops.lookup id := by
  induction new generalizing ops with
  | nil => rfl
  | cons first rest ih =>
    simp only [map_cons, mem_cons, not_or] at h
    simp only [add, foldl_cons]
    refine (ih h.2).trans ?_
    exact (FinMap.lookup_insert_eq _ _ _ _).trans (if_neg h.1)

/-- **New operations** enter one by one. -/
theorem WorldOk.enterAll {α : Type} (h : WorldOk w) {items : List α}
    {key : α → QueuedOperationId} {facts : α → OpFacts} {v : α → View}
    {one : BacklogState → α → Ledger BacklogState} (hdistinct : (items.map key).Nodup)
    (hfresh : ∀ item ∈ items, w.ops.lookup (key item) = none)
    (hfold : items.foldlM one w.ledger = .ok ledger)
    (hone : ∀ {s item t}, one s item = .ok t → s.view (key item) = ⟨none, 0, 0, 0⟩ →
      IndexSound s → Tied s → Steps s t (key item) (v item))
    (hid : ∀ item, IdOk (some (facts item)) (v item))
    (hattempt : ∀ item, (facts item).attempt = false)
    (hcertain : ∀ item charge, (v item).charge = some charge →
      charge.state.isUncertain = false) :
    WorldOk { w with
      ledger := ledger
      ops := add w.ops (items.map fun item => (key item, facts item)) } := by
  refine foldlM_invariant (fun done s => WorldOk { w with
    ledger := s
    ops := add w.ops (done.map fun item => (key item, facts item)) }) h ?_ hfold
  intro done item rest s t hitems hs hstep
  have hnew : (add w.ops (done.map fun item => (key item, facts item))).lookup (key item) =
      none := by
    rw [lookup_add_of_notMem, hfresh item (by simp [hitems])]
    simpa [map_map, Function.comp_def] using notMem_of_nodup hdistinct hitems
  rw [map_append, add, foldl_append]
  exact hs.enter hnew (hone hstep (hs.view_of_fresh hnew) hs.sound hs.tied) (hid item)
    (hattempt item) (hcertain item)

/-- **A reservation** enters new operations. -/
theorem WorldOk.admitAll (h : WorldOk w) {charges : List OperationCharge}
    (hdistinct : (charges.map (·.id)).Nodup)
    (hfresh : ∀ charge ∈ charges, w.ops.lookup charge.id = none)
    (hadmitAll : w.ledger.admitAll charges = .ok ledger) :
    WorldOk { w with
      ledger := ledger
      ops := add w.ops
        (charges.map fun charge => (charge.id, .reserved charge.target)) } := by
  refine h.enterAll (v := fun charge => ⟨some (entering charge .reserved), 0, 0, 0⟩) hdistinct
    hfresh hadmitAll ?_ ?_ (fun _ => rfl) ?_
  · intro s charge t hstep hview hsound htied
    cases hstep
    have hinserted := inserted_steps .reserved (congrArg View.charge hview) hsound htied
    rwa [hview] at hinserted
  · intro charge
    exact ⟨by simp [FactsOk, OpFacts.reserved], rfl, rfl, ⟨rfl, rfl, rfl⟩, rfl,
      by simp [OpFacts.reserved]⟩
  · intro charge found hfound
    cases hfound
    rfl

/-- **The operations found at open** are discovered. -/
theorem WorldOk.load (h : WorldOk w) {target : QueueTarget} {operations : List StoredOperation}
    (hdistinct : (operations.map fst).Nodup)
    (hfresh : ∀ operation ∈ operations, w.ops.lookup operation.1 = none)
    (hload : w.ledger.loadDurable target operations = .ok ledger) :
    WorldOk { w with
      ledger := ledger
      ops := add w.ops (operations.map fun operation => (operation.1, .loaded target)) } := by
  refine h.enterAll (v := fun operation =>
      ⟨some (entering (storedCharge target operation) (.durable .discovered)), 0, 1, 0⟩)
    hdistinct hfresh hload ?_ ?_ (fun _ => rfl) ?_
  · intro s operation t hstep hview hsound htied
    have hcounted := (inserted_steps (a := storedCharge target operation) (.durable .discovered)
      (congrArg View.charge hview) hsound htied).count_discovered
    have hlookup : s.charges.lookup operation.1 = none := congrArg View.charge hview
    have hdiscover : s.discover (storedCharge target operation) = .ok
        ((s.inserted (storedCharge target operation) (.durable .discovered)).count
          (.discovered operation.1)) := by
      simp only [discover, storedCharge, hlookup]
      rfl
    rw [hdiscover] at hstep
    cases hstep
    rwa [show (storedCharge target operation).id = operation.1 from rfl, hview] at hcounted
  · intro operation
    exact ⟨fun _ => rfl, rfl, rfl, ⟨rfl, rfl⟩, rfl, by simp [OpFacts.loaded]⟩
  · intro operation found hfound
    cases hfound
    rfl

end Lists

/-! ## §7. Reconciliation. -/

section Reconciliation

variable {w : World} {target : QueueTarget} {ticket : Nat} {present : List StoredOperation}

/-- A queued operation is retained. -/
theorem IdOk.charged_of_queued (h : IdOk (some facts) v)
    (hqueued : facts.queued = true) :
    facts.enqueue = .durable ∧ facts.acked = false ∧ v.charge.isSome = true := by
  simp only [OpFacts.queued, Bool.and_eq_true, decide_eq_true_eq, Bool.not_eq_true'] at hqueued
  refine ⟨hqueued.1, hqueued.2, ?_⟩
  cases hcharge : v.charge with
  | some charge => rfl
  | none =>
    simp [(((idOk_some_released hcharge).mp h).2.of_durable hqueued.1).1] at hqueued

theorem not_queued (h : ¬ facts.queued = true)
    (hdurable : facts.enqueue = .durable) : facts.acked = true := by
  simpa [OpFacts.queued, hdurable] using h

/-- **A flushed read decides what was marked before its ticket.** -/
theorem WorldOk.read (h : WorldOk w) (hreadable : w.readable target ticket present = true) :
    WorldOk { w with reads := w.reads.insert target (ticket, present) } := by
  simp only [World.readable, Bool.and_eq_true, decide_eq_true_eq, all_eq_true,
    Option.any_eq_true, Bool.or_eq_true, Bool.not_eq_true'] at hreadable
  obtain ⟨⟨hticket, hpresent⟩, hothers⟩ := hreadable
  refine ⟨h.sound, h.tied, h.clock, h.ids, ?_⟩
  intro target' ticket' present' hlookup
  rw [FinMap.lookup_insert_eq] at hlookup
  by_cases htarget : target' = target
  swap
  · rw [if_neg htarget] at hlookup
    exact h.reads target' ticket' present' hlookup
  rw [if_pos htarget] at hlookup
  cases hlookup
  subst htarget
  refine ⟨hticket, ?_, ?_⟩
  · intro operation hmem
    obtain ⟨facts, hfacts, hsame, -⟩ := hpresent operation hmem
    exact ⟨facts, hfacts, hsame⟩
  · intro id facts hfacts hsame
    have hrow := h.ids id
    rw [hfacts] at hrow
    obtain ⟨⟨hattempt, hdecided⟩, hcomplete⟩ :=
      (hothers ⟨id, facts⟩ (AList.mem_lookup_iff.mp hfacts)).resolve_left (by simpa using hsame)
    have habsent : id ∉ present.map fst → ¬ facts.queued = true := by
      intro hnot
      simpa using hcomplete.resolve_right hnot
    have hqueued : id ∈ present.map fst → facts.queued = true := by
      intro hmem
      obtain ⟨operation, hoperation, rfl⟩ := mem_map.mp hmem
      obtain ⟨found, hfound, -, hq⟩ := hpresent operation hoperation
      rw [hfacts] at hfound
      cases hfound
      exact hq
    -- The flush decided the commits of a charge marked before the ticket.
    have hflushed : ∀ {charge commit marked}, (w.ledger.view id).charge = some charge →
        charge.state = .uncertain commit marked → marked < ticket →
          facts.enqueue ≠ .pending ∧ facts.inFlight = false := by
      intro charge commit marked hcharge hstate hlt
      obtain ⟨chargeTarget, entity, charged, state⟩ := charge
      dsimp only at hstate
      subst hstate
      have hheld : w.ledger.charges.lookup id =
          some ⟨chargeTarget, entity, charged, .uncertain commit marked⟩ := hcharge
      simp only [World.decided, hheld, Bool.or_eq_true, decide_eq_true_eq, Bool.and_eq_true,
        Bool.not_eq_true'] at hdecided
      exact hdecided.resolve_left (Nat.not_le.mpr hlt)
    refine ⟨hattempt, ?_, ?_⟩
    · intro hmem
      obtain ⟨hdurable, -, hsome⟩ := hrow.charged_of_queued (hqueued hmem)
      exact ⟨hdurable, hsome⟩
    · intro charge commit marked hcharge hstate hlt
      obtain ⟨hpending, hflight⟩ := hflushed hcharge hstate hlt
      have hcharged := ((idOk_some_charged hcharge).mp hrow).2
      by_cases hmem : id ∈ present.map fst
      · obtain ⟨hdurable, hacked, -⟩ := hrow.charged_of_queued (hqueued hmem)
        cases commit <;> simp [Settles, hmem, hdurable, hacked, hflight]
      · cases commit with
        | enqueue =>
          -- A durable one would be acknowledged, which the ledger does not know of.
          cases henqueue : facts.enqueue with
          | dead => simp [Settles, hmem, henqueue]
          | pending => exact absurd henqueue hpending
          | durable =>
            rcases hcharged.known (.inl (not_queued (habsent hmem) henqueue)) with hopen | hack
            · cases hattempt.symm.trans hopen
            · rw [hstate] at hack
              cases hack
        | acknowledgement origin returned =>
          have hstateOk := hcharged.state
          rw [hstate] at hstateOk
          have hdurable : facts.enqueue = .durable := by
            cases origin <;> exact hstateOk.1
          simp [Settles, hmem, not_queued (habsent hmem) hdurable]

/-- Every operation read is retained, so the first loop discovers nothing. -/
theorem discoverPresent_retained {s t : BacklogState} {found : Finset QueuedOperationId}
    (hretained : ∀ operation ∈ present, (s.charges.lookup operation.1).isSome = true)
    (h : s.discoverPresent target present = .ok (t, found)) :
    t = s ∧ ∀ id, id ∈ found ↔ id ∈ present.map fst ∧
      (s.charges.lookup id).any (·.state.isUncertain) = true := by
  refine foldlM_invariant (fun done (acc : BacklogState × Finset QueuedOperationId) =>
    acc.1 = s ∧ ∀ id, id ∈ acc.2 ↔ id ∈ done.map fst ∧
      (s.charges.lookup id).any (·.state.isUncertain) = true) ⟨rfl, by simp⟩ ?_ h
  rintro done operation rest ⟨u, seen⟩ ⟨u', seen'⟩ hpresent ⟨rfl, hseen⟩ hstep
  obtain ⟨charge, hcharge⟩ := Option.isSome_iff_exists.mp
    (hretained operation (by simp [hpresent]))
  dsimp only at hcharge hseen
  simp only [presentOne, hcharge] at hstep
  split at hstep
  case isTrue huncertain =>
    cases hstep
    refine ⟨rfl, ?_⟩
    intro id
    by_cases hid : id = operation.1
    · subst hid
      simp [hcharge, huncertain]
    · simp [hid, hseen]
  case isFalse hcertain =>
    cases hstep
    refine ⟨rfl, ?_⟩
    intro id
    by_cases hid : id = operation.1
    · subst hid
      simp [hseen, hcharge, hcertain]
    · simp [hid, hseen]

/-- What the read under way proves of a charge the reconciliation settles. -/
theorem ReadOk.settles {id : QueuedOperationId} (h : ReadOk ticket ids id facts v) {marked : Nat} (hcharge : v.charge = some charge)
    (hstate : charge.state = .uncertain commit marked)
    (hwhy : (id ∈ ids ∧ commit = .enqueue) ∨ marked < ticket) :
    Settles facts commit (decide (id ∈ ids)) := by
  rcases hwhy with ⟨hmem, rfl⟩ | hlt
  · rw [Settles, decide_eq_true hmem]
    exact (h.durable hmem).1
  · exact h.settled charge commit marked hcharge hstate hlt

/-- **Settling the charges of one target.** -/
theorem WorldOk.settleAll (h : WorldOk w) {now : Instant} {items : List Settled}
    {acc : BacklogState × Nat} (hreads : w.reads.lookup target = some (ticket, present))
    (hdistinct : (items.map fst).Nodup)
    (hitems : ∀ item ∈ items, ∃ charge marked, w.ledger.charges.lookup item.1 = some charge ∧
      charge.target = target ∧ charge.state = .uncertain item.2.1 marked ∧
      item.2.2 = decide (item.1 ∈ present.map fst) ∧
      ((item.1 ∈ present.map fst ∧ item.2.1 = .enqueue) ∨ marked < ticket))
    (hfold : items.foldlM (settleOne now) (w.ledger, 0) = .ok acc) :
    WorldOk { w with ledger := acc.1 } := by
  -- A charge is settled as it was before the loop, since the items are distinct.
  refine And.left (foldlM_invariant (fun done (acc : BacklogState × Nat) =>
    WorldOk { w with ledger := acc.1 } ∧
      ∀ id, id ∉ done.map fst → acc.1.view id = w.ledger.view id) ⟨h, fun _ _ => rfl⟩ ?_ hfold)
  rintro done ⟨id, commit, found⟩ rest acc acc' hsplit ⟨hok, hsame⟩ hstep
  obtain ⟨charge, marked, hcharge, hchargeTarget, hstate, hfound, hwhy⟩ :=
    hitems (id, commit, found) (by simp [hsplit])
  dsimp only at hcharge hstate hfound hwhy
  have hview := hsame id (notMem_of_nodup hdistinct hsplit)
  have hheld : (acc.1.view id).charge = some charge := by
    rwa [hview]
  have hsteps := settleOne_steps hstep hok.sound hok.tied
  have hrow := hok.ids id
  cases hfacts : w.ops.lookup id with
  | none =>
    have hunknown : acc.1.view id = ⟨none, 0, 0, 0⟩ := hok.view_of_fresh hfacts
    simp [hunknown] at hheld
  | some facts =>
    rw [show w.ops.lookup id = some facts from hfacts] at hrow
    have htarget : facts.target = target := by
      rw [← hchargeTarget]
      exact ((idOk_some_charged hheld).mp hrow).2.target.symm
    have hread : ReadOk ticket (present.map fst) id facts (acc.1.view id) :=
      (hok.reads target ticket present hreads).2.2 id facts hfacts htarget
    have hsettles := hread.settles hheld hstate hwhy
    rw [← hfound] at hsettles
    refine ⟨?_, ?_⟩
    · refine hok.one hsteps ?_ ?_ (hrow.settle hheld hstate hsettles hread.noAttempt) ?_
      · intro other
        split_ifs with hother
        · rw [hother]
          exact hfacts
        · rfl
      · intro old hold
        rw [show w.ops.lookup id = some facts from hfacts] at hold
        cases hold
        rfl
      · intro ticket' present' hreads'
        rw [show w.reads.lookup facts.target = some (ticket, present) from htarget ▸ hreads]
          at hreads'
        cases hreads'
        exact hread.settle fun hmem => by rw [hfound, decide_eq_true hmem]
    · intro other hother
      simp only [map_append, map_cons, map_nil, mem_append,
        mem_singleton, not_or] at hother
      rw [hsteps.views, if_neg hother.2]
      exact hsame other hother.1

/-- **`finish_reconciliation`** counts what its read proved. -/
theorem WorldOk.finish (h : WorldOk w) {order : VisitOrder} {now : Instant} {ledger : BacklogState}
    {released : Nat} (hreads : w.reads.lookup target = some (ticket, present))
    (hfinish : w.ledger.finishReconciliation order ticket target present now =
      .ok (ledger, released)) :
    WorldOk { w with ledger := ledger, reads := w.reads.erase target } := by
  have hkept : WorldOk { w with ledger := ledger } → WorldOk { w with
      ledger := ledger, reads := w.reads.erase target } := by
    intro hok
    refine ⟨hok.sound, hok.tied, hok.clock, hok.ids, ?_⟩
    intro target' ticket' present' hlookup
    rw [FinMap.lookup_erase_eq] at hlookup
    by_cases htarget : target' = target
    · simp [if_pos htarget] at hlookup
    · rw [if_neg htarget] at hlookup
      exact hok.reads target' ticket' present' hlookup
  apply hkept
  obtain ⟨-, hpresent, hrows⟩ := h.reads target ticket present hreads
  have hretained : ∀ operation ∈ present,
      (w.ledger.charges.lookup operation.1).isSome = true := by
    intro operation hmem
    obtain ⟨facts, hfacts, htarget⟩ := hpresent operation hmem
    exact ((hrows operation.1 facts hfacts htarget).durable (mem_map_of_mem hmem)).2
  obtain ⟨⟨s, found⟩, hdiscover, hrest⟩ := except_bind_ok hfinish
  obtain ⟨rfl, hfound⟩ := discoverPresent_retained hretained hdiscover
  dsimp only at hrest
  cases hids : w.ledger.uncertain.lookup target with
  | none =>
    rw [hids] at hrest
    cases hrest
    exact h
  | some ids =>
    rw [hids] at hrest
    obtain ⟨settled, hsettled, hfold⟩ := except_bind_ok hrest
    have hall := mapM_ok hsettled
    have hsublist := settled_sublist (hall.imp fun id item hitem settled hsome =>
      settlement_id (hsome ▸ hitem))
    refine h.settleAll hreads ((order.nodup ids).sublist hsublist) ?_ hfold
    intro item hitem
    obtain ⟨found?, hmem, rfl⟩ := mem_filterMap.mp hitem
    obtain ⟨id, hid, hsettlement⟩ := exists_of_mem_mapM hsettled hmem
    obtain ⟨charge, commit, marked, hcharge, hstate, rfl, hwhy⟩ := settlement_inv hsettlement
    have hindexed : id ∈ (w.ledger.uncertain.lookup target).getD ∅ := by
      rw [hids]
      exact (order.mem_visit ids id).mp hid
    obtain ⟨indexed, hindexedCharge, htarget, -⟩ := h.sound target id hindexed
    rw [hcharge] at hindexedCharge
    cases hindexedCharge
    have hiff : id ∈ found ↔ id ∈ present.map fst := by
      rw [hfound, hcharge]
      simp [hstate, ChargeState.isUncertain]
    refine ⟨charge, marked, hcharge, htarget, hstate, ?_, ?_⟩
    · simp [hiff]
    · rwa [← hiff]

end Reconciliation

/-! ## §8. Every run. -/

/-- **Every step keeps the table.** -/
theorem worldOk_step {limits : BacklogLimits} {w w' : World} {a : World.Action} (h : WorldOk w)
    (hstep : w.step limits a = some w') : WorldOk w' := by
  cases a with
  | reserve charges blocked =>
    simp only [step] at hstep
    split_ifs at hstep with hfresh
    simp only [all_eq_true, Option.isNone_iff_eq_none] at hfresh
    split at hstep
    case h_1 ledger reservation hreserve =>
      cases hstep
      rcases reserve_ok_cases hreserve with ⟨error, herror, -⟩ | ⟨-, -, hwf, hadmitAll⟩
      · cases herror
      · exact h.admitAll hwf.distinct hfresh hadmitAll
    case h_2 ledger error hreserve =>
      cases hstep
      rcases reserve_ok_cases hreserve with ⟨-, -, rfl⟩ | ⟨reservation, hok, -⟩
      · exact h
      · cases hok
    case h_3 => cases hstep
  | load target operations =>
    simp only [step] at hstep
    split_ifs at hstep with hguard
    simp only [all_eq_true, Option.isNone_iff_eq_none] at hguard
    split at hstep
    case h_1 ledger hload =>
      cases hstep
      exact h.load hguard.1 hguard.2 hload
    case h_2 => cases hstep
  | land id | lose id =>
    exact h.change hstep (fun _ => rfl)
      (fun hrow hp => hrow.decide_enqueue (of_decide_eq_true hp) _)
      (fun hread hp _ => hread.decide_enqueue (of_decide_eq_true hp) _)
  | resolve ids outcome now =>
    obtain ⟨hdistinct, hall, ledger, hresolve, rfl⟩ := ledgerStep_some hstep
    have hfold : ids.foldlM (resolveOne outcome now w.ledger.reconcileClock) w.ledger =
        .ok ledger := by
      unfold BacklogState.resolve at hresolve
      cases hloop : ids.foldlM (resolveOne outcome now w.ledger.reconcileClock) w.ledger with
      | error site =>
        rw [hloop] at hresolve
        cases hresolve
      | ok final =>
        rw [hloop] at hresolve
        cases hresolve
        rfl
    exact h.call (g := fun v => v.resolve outcome now w.ledger.reconcileClock) hdistinct hall hfold
      (fun _ => rfl) resolveOne_steps (fun hrow hp => hrow.resolve hp now _)
      (fun hread hp hticket => hread.resolve hp now hticket)
  | attempt id =>
    refine h.change hstep (fun _ => rfl) ?_ ?_
    · intro facts v hrow hp
      simp only [OpFacts.queued, Bool.and_eq_true, decide_eq_true_eq, Bool.not_eq_true'] at hp
      exact hrow.attempt hp.1.1.1 hp.1.1.2
    · intro facts v ticket present _ hp hreads
      simp [hreads] at hp
  | landAck id =>
    exact h.change hstep (fun _ => rfl) IdOk.landAck (fun hread hflight _ => hread.landAck hflight)
  | loseAck id =>
    exact h.change hstep (fun _ => rfl) (fun hrow _ => hrow.loseAck) (fun hread _ _ => hread.loseAck)
  | abandon id =>
    refine h.change hstep (fun _ => rfl) ?_ ?_
    · intro facts v hrow hp
      simp only [Bool.and_eq_true, Bool.not_eq_true'] at hp
      exact hrow.abandon hp.1 hp.2
    · intro facts v ticket present hread hp
      simp [hread.noAttempt] at hp
  | acknowledge ids now =>
    obtain ⟨hdistinct, hall, ledger, hfold, rfl⟩ := ledgerStep_some hstep
    refine h.call hdistinct hall hfold (fun _ => rfl) acknowledgeOne_steps ?_ ?_
    · intro facts v hrow hp
      simp only [Bool.and_eq_true] at hp
      exact hrow.acknowledge hp.1 hp.2
    · intro facts v id ticket present hread hp
      simp [hread.noAttempt] at hp
  | markUncertain ids returned =>
    obtain ⟨hdistinct, hall, ledger, hfold, rfl⟩ := ledgerStep_some hstep
    refine h.call (g := fun v => v.mark w.ledger.reconcileClock returned) hdistinct hall hfold
      (fun _ => rfl) markOne_steps (fun hrow hp => hrow.mark hp _ returned) ?_
    intro facts v id ticket present hread hp
    simp [hread.noAttempt] at hp
  | beginReconciliation =>
    cases hstep
    refine ⟨h.sound, ⟨h.tied.committed, h.tied.discovered, h.tied.acknowledged, h.tied.timed⟩,
      saturatingAdd_le _ _, h.ids, ?_⟩
    intro target ticket present hlookup
    obtain ⟨hticket, hrest⟩ := h.reads target ticket present hlookup
    exact ⟨hticket.trans (le_saturatingAdd h.clock), hrest⟩
  | read target ticket present =>
    simp only [step] at hstep
    split_ifs at hstep with hreadable
    cases hstep
    exact h.read hreadable
  | finishReconciliation order target now =>
    simp only [step] at hstep
    split at hstep
    case h_1 => cases hstep
    case h_2 ticket present hreads =>
      split at hstep
      case h_1 ledger released hfinish =>
        cases hstep
        exact h.finish hreads hfinish
      case h_2 => cases hstep

theorem worldOk_start : WorldOk start where
  sound target id hmem := by
    simp [start, BacklogState.empty] at hmem
  tied := tied_empty
  clock := Nat.zero_le _
  ids id := ⟨rfl, rfl, rfl⟩
  reads target ticket present hlookup := by
    cases hlookup

/-- The operation's enqueue is durable. -/
def World.durable (w : World) (id : QueuedOperationId) : Bool :=
  (w.ops.lookup id).any fun facts => decide (facts.enqueue = .durable)

/-- **What the table says of the counts.** -/
theorem IdOk.counts {facts : Option OpFacts} (h : IdOk facts v) :
    v.committed + v.discovered ≤ 1 ∧ v.acknowledged ≤ 1 ∧
      (facts.any (fun known => decide (known.enqueue = .durable)) = false →
        v.discovered = 0 ∧ v.acknowledged = 0) ∧
      ∀ known, facts = some known →
        (known.confirmed = true → known.acked = true ∧ v.charge = none) ∧
        (known.acked = true → known.resolved = true → v.charge = none →
          v.committed + v.discovered = 1 ∧ v.acknowledged = 1) := by
  cases facts with
  | none =>
    cases hcharge : v.charge with
    | some charge => simp [IdOk, hcharge] at h
    | none =>
      simp only [IdOk, hcharge] at h
      simp [h]
  | some facts =>
    have hle : facts.resolved.toNat ≤ 1 := Bool.toNat_le facts.resolved
    cases hcharge : v.charge with
    | none =>
      obtain ⟨hfacts, hreleased⟩ := (idOk_some_released hcharge).mp h
      rcases hreleased with ⟨hdurable, hacked, -, hcount, hsum⟩ | ⟨hdead, -, hconfirmed, ha, hc, hd⟩
      · refine ⟨by omega, by omega, ?_, ?_⟩
        · simp [hdurable]
        · rintro known ⟨⟩
          refine ⟨fun _ => ⟨hacked, rfl⟩, ?_⟩
          intro _ hresolved _
          rw [hresolved] at hsum
          exact ⟨hsum, hcount⟩
      · refine ⟨by omega, by omega, fun _ => ⟨hd, ha⟩, ?_⟩
        rintro known ⟨⟩
        refine ⟨?_, ?_⟩
        · intro hyes
          simp [hconfirmed] at hyes
        · intro hacked
          simp [hfacts (.inl hacked)] at hdead
    | some charge =>
      obtain ⟨-, hcharged⟩ := (idOk_some_charged hcharge).mp h
      have hstate := hcharged.state
      have hzero := hcharged.unacknowledged
      have hconfirmed := hcharged.unconfirmed
      obtain ⟨target, entity, charged, state⟩ := charge
      refine ⟨?_, by omega, ?_, ?_⟩
      · rcases state with _ | (_ | _) | ⟨_ | ⟨_ | _, _⟩, _⟩ <;> simp only [StateOk] at hstate <;>
          omega
      · intro hnot
        have hpending : facts.enqueue ≠ .durable := by simpa using hnot
        rcases state with _ | (_ | _) | ⟨_ | ⟨_ | _, _⟩, _⟩ <;> simp_all [StateOk]
      · rintro known ⟨⟩
        simp [hconfirmed]

/-- The invariant holds along every run. -/
theorem worldOk_run {limits : BacklogLimits} {history : List Empty} {w : World}
    (h : (machine limits).Run Machine.always start history w) : WorldOk w := by
  refine h.invariant (fun _ w => WorldOk w) worldOk_start ?_
  intro history w a w' events hw _ hstep
  obtain ⟨next, hnext, heq⟩ := Option.map_eq_some_iff.mp hstep
  cases heq
  exact worldOk_step hw hnext

/-- Events of known operations, at most one of each, are no more than the operations. -/
theorem length_le_of_counts {ids known : List QueuedOperationId} (hone : ∀ id, ids.count id ≤ 1)
    (hknown : ∀ id ∉ known, ids.count id = 0) : ids.length ≤ known.length := by
  have hsubset : ids ⊆ known := by
    intro id hid
    by_contra hunknown
    exact (count_pos_iff.mpr hid).ne' (hknown id hunknown)
  exact ((nodup_iff_count_le_one.mpr hone).subperm hsubset).length_le

/-- The operation whose start an event counts. -/
def Counted.started : Counted → Option QueuedOperationId
  | committed id | discovered id => some id
  | acknowledged _ => none

/-- The operation whose end an event counts. -/
def Counted.ended : Counted → Option QueuedOperationId
  | acknowledged id => some id
  | committed _ | discovered _ => none

theorem count_started (events : List Counted) (id : QueuedOperationId) :
    (events.filterMap Counted.started).count id =
      events.count (.committed id) + events.count (.discovered id) := by
  induction events with
  | nil => rfl
  | cons event events ih => cases event <;> grind [Counted.started]

theorem count_ended (events : List Counted) (id : QueuedOperationId) :
    (events.filterMap Counted.ended).count id = events.count (.acknowledged id) := by
  induction events with
  | nil => rfl
  | cons event events ih => cases event <;> grind [Counted.ended]

theorem Tied.lengths {s : BacklogState} (h : Tied s) :
    s.outcomes.committed + s.outcomes.discovered = (s.counted.filterMap Counted.started).length ∧
      s.outcomes.acknowledged = (s.counted.filterMap Counted.ended).length := by
  rw [h.committed, h.discovered, h.acknowledged]
  generalize s.counted = events
  induction events with
  | nil => exact ⟨rfl, rfl⟩
  | cons event events ih => cases event <;> grind [Counted.started, Counted.ended]

/-- The counters are no more than the operations known. -/
theorem WorldOk.counters_le {w : World} (h : WorldOk w) :
    w.ledger.outcomes.committed + w.ledger.outcomes.discovered ≤ w.ops.keys.length ∧
      w.ledger.outcomes.acknowledged ≤ w.ops.keys.length := by
  have hunknown (id) (hid : id ∉ w.ops.keys) : (w.ledger.view id).committed = 0 ∧
      (w.ledger.view id).discovered = 0 ∧ (w.ledger.view id).acknowledged = 0 := by
    have hnone := h.ids id
    rw [AList.lookup_eq_none.mpr hid] at hnone
    unfold IdOk at hnone
    split at hnone
    all_goals first
      | exact hnone
      | contradiction
  rw [h.tied.lengths.1, h.tied.lengths.2]
  constructor
  · refine length_le_of_counts (fun id => ?_) (fun id hid => ?_)
    · rw [count_started]
      exact (h.ids id).counts.1
    · rw [count_started]
      exact Nat.add_eq_zero_iff.mpr ⟨(hunknown id hid).1, (hunknown id hid).2.1⟩
  · refine length_le_of_counts (fun id => ?_) (fun id hid => ?_)
    · rw [count_ended]
      exact (h.ids id).counts.2.1
    · rw [count_ended]
      exact (hunknown id hid).2.2

/-- An operation whose producer sees no outcome and whose acknowledgement is uncertain: publication
    attempts it before the producer returns, and a reconciliation proves it. -/
def sampleRun : List World.Action :=
  [.reserve [sampleCharge ⟨1, one_clear⟩ 24] [],
    .land ⟨1, one_clear⟩,
    .attempt ⟨1, one_clear⟩,
    .landAck ⟨1, one_clear⟩,
    .markUncertain [⟨1, one_clear⟩] 9,
    .resolve [⟨1, one_clear⟩] .uncertain 10,
    .beginReconciliation,
    .read ⟨.legacyUnscoped, .initial _, .initial _⟩ 1 [],
    .finishReconciliation ⟨fun ids => ids.sort (· ≥ ·), by simp, by simp⟩
      ⟨.legacyUnscoped, .initial _, .initial _⟩ 11]

/-- **Capacity is released in time and not before.**  In every interleaving, an operation that has
    no charge is durably acknowledged or never committed, and every charge belongs to an operation
    that was reserved or loaded and that publication has not reported acknowledged. -/
theorem charges_held_while_needed (limits : BacklogLimits) {history : List Empty} {w : World}
    (h : (machine limits).Run Machine.always start history w) :
    (∀ id facts, w.ops.lookup id = some facts → w.ledger.charges.lookup id = none →
      facts.acked = true ∨ facts.enqueue = .dead) ∧
    ∀ id charge, w.ledger.charges.lookup id = some charge →
      ∃ facts, w.ops.lookup id = some facts ∧ charge.target = facts.target ∧
        facts.confirmed = false := by
  have hok := worldOk_run h
  refine ⟨fun id facts hfacts hcharge => ?_, fun id charge hcharge => ?_⟩
  · have hid := hok.ids id
    rw [hfacts, idOk_some_released hcharge] at hid
    exact hid.2.imp (·.2.1) (·.1)
  · have hid := hok.ids id
    cases hfacts : w.ops.lookup id with
    | none => simp [hfacts, IdOk, view, hcharge] at hid
    | some facts =>
      rw [hfacts, idOk_some_charged hcharge] at hid
      exact ⟨facts, rfl, hid.2.target, hid.2.unconfirmed⟩

theorem charges_held_while_needed_sample :
    ∃ history w, (machine ⟨1000, 1⟩).Run Machine.always start history w ∧
      w.ledger.charges.lookup ⟨1, one_clear⟩ = none ∧
      ∀ facts, w.ops.lookup ⟨1, one_clear⟩ = some facts →
        facts.acked = true ∨ facts.enqueue = .dead := by
  have hexec : ((machine ⟨1000, 1⟩).exec (fun _ _ => true) start sampleRun).map
      (fun out => out.1.ledger.charges.lookup ⟨1, one_clear⟩) = some none := by decide +kernel
  obtain ⟨⟨w, history⟩, hrun, hnone⟩ := Option.map_eq_some_iff.mp hexec
  have h := Machine.run_of_exec (fun _ _ _ => trivial) hrun
  exact ⟨history, w, h, hnone, fun facts hfacts =>
    (charges_held_while_needed _ h).1 _ facts hfacts hnone⟩

end HelixDb.Backlog
