/-
  HelixDb.Backlog.World

  **THE LEDGER AND THE STORE IT KEEPS ACCOUNTS OF**: producers, publication and
  reconciliation interleave over what is really durable.

  The store decides when an enqueue or an acknowledgement becomes durable;
  producers and publication learn of it later, or never, and tell the ledger
  what they learned.  An operation ID is never used for two operations.
-/
import HelixDb.Backlog.Reserve
import HelixDb.Lib.Machine

namespace HelixDb.Backlog

open HelixDb.Lib HelixDb.Keys HelixDb.Lifecycle

/-! ## §1. What is true of an operation. -/

/-- The enqueue of an operation, as the store decides it. -/
inductive EnqueueFacts where
  | pending
  | durable
  /-- Never committed. -/
  | dead
deriving DecidableEq

/-- What is true of one operation. -/
structure OpFacts where
  target : QueueTarget
  enqueue : EnqueueFacts
  /-- Durably acknowledged. -/
  acked : Bool
  /-- An acknowledgement commit may still become durable. -/
  inFlight : Bool
  /-- Publication submitted an acknowledgement and has not told the ledger its outcome. -/
  attempt : Bool
  /-- The producer told the ledger the outcome of its commit. -/
  resolved : Bool
  /-- Publication told the ledger that the acknowledgement is durable. -/
  confirmed : Bool
deriving DecidableEq

namespace OpFacts

/-- An operation a producer reserved capacity for. -/
def reserved (target : QueueTarget) : OpFacts :=
  ⟨target, .pending, false, false, false, false, false⟩

/-- An operation of an earlier process, found durable at open. -/
def loaded (target : QueueTarget) : OpFacts := ⟨target, .durable, false, false, false, true, false⟩

/-- The operation is in its queue. -/
def queued (facts : OpFacts) : Bool := decide (facts.enqueue = .durable) && !facts.acked

/-- The producer's outcome; a definite abort committed nothing. -/
def resolve (facts : OpFacts) (outcome : BacklogState.ReservationOutcome) : OpFacts :=
  { facts with
    resolved := true
    enqueue := if outcome = .aborted then .dead else facts.enqueue }

/-- The outcome is consistent with the enqueue: an aborted one is not durable. -/
def canResolve (facts : OpFacts) (outcome : BacklogState.ReservationOutcome) : Bool :=
  !facts.resolved && (decide (outcome ≠ .aborted) || decide (facts.enqueue ≠ .durable))

/-- An acknowledgement publication saw as durable. -/
def confirm (facts : OpFacts) : OpFacts := { facts with attempt := false, confirmed := true }

/-- An acknowledgement publication gave up on. -/
def report (facts : OpFacts) : OpFacts := { facts with attempt := false }

end OpFacts

/-! ## §2. The world. -/

/-- The ledger and what is true of the operations in the store. -/
structure World where
  ledger : BacklogState
  ops : FinMap QueuedOperationId OpFacts
  /-- The reads of reconciliations under way, by target: the ticket and the operations read. -/
  reads : FinMap QueueTarget (Nat × List BacklogState.StoredOperation)

namespace World

/-- A new ledger over an empty store. -/
def start : World := ⟨.empty, ∅, ∅⟩

/-- What the parties and the store can do. -/
inductive Action where
  | reserve (charges : List OperationCharge) (blocked : List BlockedBuild)
  /-- The ledger is told the operations of one queue found at open. -/
  | load (target : QueueTarget) (operations : List BacklogState.StoredOperation)
  /-- An enqueue becomes durable. -/
  | land (id : QueuedOperationId)
  /-- An enqueue is lost. -/
  | lose (id : QueuedOperationId)
  | resolve (ids : List QueuedOperationId) (outcome : BacklogState.ReservationOutcome)
      (now : Instant)
  /-- Publication submits an acknowledgement. -/
  | attempt (id : QueuedOperationId)
  /-- A submitted acknowledgement becomes durable. -/
  | landAck (id : QueuedOperationId)
  /-- A submitted acknowledgement is lost. -/
  | loseAck (id : QueuedOperationId)
  /-- Publication learns that its acknowledgement committed nothing. -/
  | abandon (id : QueuedOperationId)
  | acknowledge (ids : List QueuedOperationId) (now : Instant)
  | markUncertain (ids : List QueuedOperationId) (returned : Instant)
  | beginReconciliation
  /-- A flushed read of `target`'s queue, for a reconciliation that began with `ticket`. -/
  | read (target : QueueTarget) (ticket : Nat) (present : List BacklogState.StoredOperation)
  | finishReconciliation (order : VisitOrder) (target : QueueTarget) (now : Instant)

/-- Every listed operation satisfies `p`. -/
def allOps (w : World) (ids : List QueuedOperationId) (p : OpFacts → Bool) : Bool :=
  ids.all fun id => (w.ops.lookup id).any p

/-- Changes what is true of the listed operations. -/
def update (ops : FinMap QueuedOperationId OpFacts) (ids : List QueuedOperationId)
    (f : OpFacts → OpFacts) : FinMap QueuedOperationId OpFacts :=
  ids.foldl (fun ops id =>
    match ops.lookup id with
    | some facts => ops.insert id (f facts)
    | none => ops) ops

/-- New operations. -/
def add (ops : FinMap QueuedOperationId OpFacts) (new : List (QueuedOperationId × OpFacts)) :
    FinMap QueuedOperationId OpFacts :=
  new.foldl (fun ops item => ops.insert item.1 item.2) ops

/-- Changes one operation that satisfies `p`. -/
def change (w : World) (id : QueuedOperationId) (p : OpFacts → Bool) (f : OpFacts → OpFacts) :
    Option World :=
  if w.allOps [id] p then some { w with ops := update w.ops [id] f } else none

/-- The ledger's part of a step; a panic ends the run. -/
def ledgerStep (w : World) (ids : List QueuedOperationId) (p : OpFacts → Bool)
    (f : OpFacts → OpFacts) (result : Ledger BacklogState) : Option World :=
  if ids.Nodup ∧ w.allOps ids p = true then
    match result with
    | .ok ledger => some { w with ledger := ledger, ops := update w.ops ids f }
    | .error _ => none
  else none

/-- A commit that was in flight when `ticket` was issued is decided by the flush. -/
def decided (w : World) (ticket : Nat) (id : QueuedOperationId) (facts : OpFacts) : Bool :=
  match w.ledger.charges.lookup id with
  | some ⟨_, _, _, .uncertain _ marked⟩ =>
    decide (ticket ≤ marked) || (decide (facts.enqueue ≠ .pending) && !facts.inFlight)
  | _ => true

/-- A flushed read of `target`'s queue: it holds exactly the queued operations, publication has no
    acknowledgement of `target` under way, and the flush decided every earlier commit. -/
def readable (w : World) (target : QueueTarget) (ticket : Nat)
    (present : List BacklogState.StoredOperation) : Bool :=
  decide (ticket ≤ w.ledger.reconcileClock) &&
  (present.all fun operation => (w.ops.lookup operation.1).any fun facts =>
    decide (facts.target = target) && facts.queued) &&
  w.ops.entries.all fun entry => decide (entry.2.target ≠ target) ||
    (!entry.2.attempt && w.decided ticket entry.1 entry.2 &&
      (!entry.2.queued || decide (entry.1 ∈ present.map Prod.fst)))

/-- One step. -/
def step (limits : BacklogLimits) (w : World) : Action → Option World
  | .reserve charges blocked =>
    if charges.all fun charge => (w.ops.lookup charge.id).isNone then
      match w.ledger.reserve limits charges blocked with
      | .ok (ledger, .ok _) => some { w with
          ledger := ledger
          ops := add w.ops (charges.map fun charge => (charge.id, .reserved charge.target)) }
      | .ok (ledger, .error _) => some { w with ledger := ledger }
      | .error _ => none
    else none
  | .load target operations =>
    if (operations.map Prod.fst).Nodup ∧
        (operations.all fun operation => (w.ops.lookup operation.1).isNone) = true then
      match w.ledger.loadDurable target operations with
      | .ok ledger => some { w with
          ledger := ledger
          ops := add w.ops (operations.map fun operation => (operation.1, .loaded target)) }
      | .error _ => none
    else none
  | .land id => w.change id (fun facts => decide (facts.enqueue = .pending))
      fun facts => { facts with enqueue := .durable }
  | .lose id => w.change id (fun facts => decide (facts.enqueue = .pending))
      fun facts => { facts with enqueue := .dead }
  | .resolve ids outcome now =>
    w.ledgerStep ids (·.canResolve outcome) (·.resolve outcome)
      ((w.ledger.resolve ids outcome now).map Prod.fst)
  | .attempt id =>
    w.change id (fun facts => facts.queued && !facts.attempt &&
        (w.reads.lookup facts.target).isNone)
      fun facts => { facts with attempt := true, inFlight := true }
  | .landAck id => w.change id (·.inFlight)
      fun facts => { facts with inFlight := false, acked := true }
  | .loseAck id => w.change id (·.inFlight) fun facts => { facts with inFlight := false }
  | .abandon id => w.change id (fun facts => facts.attempt && !facts.acked)
      fun facts => { facts with attempt := false, inFlight := false }
  | .acknowledge ids now =>
    w.ledgerStep ids (fun facts => facts.attempt && facts.acked) (·.confirm)
      (w.ledger.acknowledge ids now)
  | .markUncertain ids returned =>
    w.ledgerStep ids (·.attempt) (·.report)
      (w.ledger.markAcknowledgementUncertain ids returned)
  | .beginReconciliation => some { w with ledger := w.ledger.beginReconciliation.1 }
  | .read target ticket present =>
    if w.readable target ticket present then
      some { w with reads := w.reads.insert target (ticket, present) }
    else none
  | .finishReconciliation order target now =>
    match w.reads.lookup target with
    | none => none
    | some (ticket, present) =>
      match w.ledger.finishReconciliation order ticket target present now with
      | .ok (ledger, _) => some { w with ledger := ledger, reads := w.reads.erase target }
      | .error _ => none

/-- The interleavings of producers, publication, reconciliation and the store. -/
def machine (limits : BacklogLimits) : Machine World Action Empty where
  step w a := (w.step limits a).map fun w' => (w', [])

end World

end HelixDb.Backlog
