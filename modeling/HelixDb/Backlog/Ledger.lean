/-
  HelixDb.Backlog.Ledger

  **THE OPERATIONS OF THE BACKLOG LEDGER**, with every `expect`, `assert!` and
  `unreachable!` as a panic.

  A hash set is visited in an unspecified order; an operation that visits one
  takes the order as an argument.
-/
import HelixDb.Backlog.State

namespace HelixDb.Backlog

open HelixDb.Lib HelixDb.Keys HelixDb.Lifecycle

/-- An order in which hash sets of operation IDs are visited. -/
structure VisitOrder where
  visit : Finset QueuedOperationId → List QueuedOperationId
  nodup : ∀ ids, (visit ids).Nodup
  mem_visit : ∀ ids id, id ∈ visit ids ↔ id ∈ ids

/-- The increment of a `u32` reference count. -/
def refIncrement (references : Nat) : Nat := (references + 1) % 2 ^ 32

/-- The decrement of a `u32` reference count. -/
def refDecrement (references : Nat) : Nat := (references + (2 ^ 32 - 1)) % 2 ^ 32

/-! ## §1. Usage of one logical index. -/

/-- The work of a generation after one more admission. -/
def GenerationUsage.admitted (work : Option GenerationUsage) (latest : Nat) : GenerationUsage :=
  match work with
  | some work => ⟨work.operations + 1, latest⟩
  | none => ⟨1, latest⟩

namespace IndexUsage

/-- The usage after one more operation of `member`, admitted as `latest`. -/
def add (usage : IndexUsage) (member : Member) (charged latest : Nat) : IndexUsage :=
  { retainedBytes := saturatingAdd usage.retainedBytes charged
    members := usage.members.insert member (refIncrement ((usage.members.lookup member).getD 0))
    generations := usage.generations.insert member.1
      (.admitted (usage.generations.lookup member.1) latest) }

/-- The usage after one operation of `member` is released, with its reference count and its
    generation's work before. -/
def without (usage : IndexUsage) (member : Member) (charged references : Nat)
    (work : GenerationUsage) : IndexUsage :=
  { retainedBytes := usage.retainedBytes - charged
    members := if refDecrement references = 0 then usage.members.erase member
      else usage.members.insert member (refDecrement references)
    generations := if work.operations - 1 = 0 then usage.generations.erase member.1
      else usage.generations.insert member.1 ⟨work.operations - 1, work.latest⟩ }

/-- Releases one operation of `member`; the two lookups are expected to succeed. -/
def remove (usage : IndexUsage) (member : Member) (charged : Nat) : Ledger IndexUsage := do
  let some references := usage.members.lookup member | throw .countedMember
  let some work := usage.generations.lookup member.1 | throw .countedGeneration
  return usage.without member charged references work

end IndexUsage

/-- The member an operation counts for. -/
def Charge.member (charge : Charge) : Member := (charge.target.generation, charge.entity)

/-- The charge in the state `next` derives from its current one. -/
def Charge.move (charge : Charge) (next : ChargeState → ChargeState) : Charge :=
  { charge with state := next charge.state }

namespace BacklogState

/-! ## §2. Single charges. -/

/-- The charge `insert` retains for an operation. -/
def entering (charge : OperationCharge) (state : ChargeState) : Charge :=
  ⟨charge.target, charge.entity, chargedBytes charge.encodedBytes, state⟩

/-- The ledger after `insert`. -/
def inserted (s : BacklogState) (charge : OperationCharge) (state : ChargeState) : BacklogState :=
  let usage := (s.indexes.lookup charge.target.logicalIndex).getD .empty
  { s with
    admissions := s.admissions + 1
    indexes := s.indexes.insert charge.target.logicalIndex
      (usage.add (charge.target.generation, charge.entity) (chargedBytes charge.encodedBytes)
        (s.admissions + 1))
    charges := s.charges.insert charge.id (entering charge state) }

/-- `BacklogState::insert`. -/
def insert (s : BacklogState) (charge : OperationCharge) (state : ChargeState) :
    Ledger BacklogState :=
  if state.isUncertain then .error .enteredUncertain else .ok (s.inserted charge state)

/-- `readmit`: a new latest admission for the generation of a retained charge. -/
def readmit (s : BacklogState) (id : QueuedOperationId) : Ledger BacklogState := do
  let some charge := s.charges.lookup id | throw .readmittedCharge
  let some usage := s.indexes.lookup charge.target.logicalIndex | throw .countedGeneration
  let some work := usage.generations.lookup charge.target.generation | throw .countedGeneration
  let generations :=
    usage.generations.insert charge.target.generation ⟨work.operations, s.admissions + 1⟩
  return { s with
    admissions := s.admissions + 1
    indexes := s.indexes.insert charge.target.logicalIndex
      { usage with generations := generations } }

/-- Increments the outcome counter of one operation's event. -/
def count (s : BacklogState) (event : Counted) : BacklogState :=
  { s with
    counted := s.counted ++ [event]
    outcomes := match event with
      | .committed _ => { s.outcomes with committed := s.outcomes.committed + 1 }
      | .discovered _ => { s.outcomes with discovered := s.outcomes.discovered + 1 }
      | .acknowledged _ => { s.outcomes with acknowledged := s.outcomes.acknowledged + 1 } }

/-- `discover`: charges a durable operation found in storage unless it is retained. -/
def discover (s : BacklogState) (charge : OperationCharge) : Ledger BacklogState := do
  if (s.charges.lookup charge.id).isSome then return s
  let s ← s.insert charge (.durable .discovered)
  return s.count (.discovered charge.id)

/-- `forget_uncertain`. -/
def forgetUncertain (s : BacklogState) (target : QueueTarget) (id : QueuedOperationId) :
    Ledger BacklogState := do
  let some ids := s.uncertain.lookup target | throw .indexedTarget
  if id ∈ ids then
    return { s with
      uncertain := if ids.erase id = ∅ then s.uncertain.erase target
        else s.uncertain.insert target (ids.erase id) }
  else throw .indexedUncertain

/-- Keeps the uncertain index exact over a charge's move, by whether it was and is uncertain. -/
def reindex (s : BacklogState) (target : QueueTarget) (id : QueuedOperationId)
    (before after : Bool) : Ledger BacklogState :=
  match before, after with
  | false, true => .ok { s with
      uncertain := s.uncertain.insert target
        (Insert.insert id ((s.uncertain.lookup target).getD ∅)) }
  | true, false => s.forgetUncertain target id
  | false, false | true, true => .ok s

/-- `transition`: moves one retained charge to the state `next` derives from its current one;
    returns the previous state. -/
def transition (s : BacklogState) (id : QueuedOperationId) (next : ChargeState → ChargeState) :
    Ledger (BacklogState × Option ChargeState) := do
  let some charge := s.charges.lookup id | return (s, none)
  let s ← { s with charges := s.charges.insert id (charge.move next) }.reindex charge.target id
    charge.state.isUncertain (next charge.state).isUncertain
  return (s, some charge.state)

/-- The uncertain index after an uncertain charge is removed. -/
def forgetIfUncertain (s : BacklogState) (charge : Charge) (id : QueuedOperationId) :
    Ledger BacklogState :=
  if charge.state.isUncertain then s.forgetUncertain charge.target id else .ok s

/-- `release`: removes one charge and its usage, returning it if it was retained. -/
def release (s : BacklogState) (id : QueuedOperationId) :
    Ledger (BacklogState × Option Charge) := do
  let some charge := s.charges.lookup id | return (s, none)
  let s ← { s with charges := s.charges.erase id }.forgetIfUncertain charge id
  let some usage := s.indexes.lookup charge.target.logicalIndex | throw .indexUsage
  let usage ← usage.remove charge.member charge.charged
  return ({ s with
    indexes := if usage.generations.keys = [] then s.indexes.erase charge.target.logicalIndex
      else s.indexes.insert charge.target.logicalIndex usage }, some charge)

/-- `u64::try_from(duration.as_micros()).unwrap_or(u64::MAX)` of a saturating difference. -/
def lagMicros (from_ until_ : Instant) : Nat := min ((until_ - from_) / 1000) U64_MAX

/-- `count_acknowledgement` of the released operation `id`. -/
def countAcknowledgement (s : BacklogState) (id : QueuedOperationId) (released : ChargeState)
    (now : Instant) : BacklogState :=
  let s := s.count (.acknowledged id)
  let (s, origin, acknowledged) := match released with
    | .durable origin => (s, origin, now)
    | .uncertain (.acknowledgement origin returned) _ => (s, origin, returned)
    -- Acknowledged before its producer observed the commit return.
    | .reserved => (s, .discovered, now)
    -- The acknowledgement proves the uncertain enqueue committed.
    | .uncertain .enqueue _ => (s.count (.discovered id), .discovered, now)
  match origin with
  | .committed instant => { s with lag := s.lag.record (lagMicros instant acknowledged) }
  | .discovered => { s with
      outcomes := { s.outcomes with
        acknowledgedCensored := s.outcomes.acknowledgedCensored + 1 } }

/-! ## §3. Operations on lists of charges. -/

/-- One operation of `acknowledge`. -/
def acknowledgeOne (now : Instant) (s : BacklogState) (id : QueuedOperationId) :
    Ledger BacklogState := do
  match ← s.release id with
  | (s, none) => return s
  | (s, some charge) => return s.countAcknowledgement id charge.state now

/-- `acknowledge`: releases durably acknowledged operations and records their lag. -/
def acknowledge (s : BacklogState) (ids : List QueuedOperationId) (now : Instant) :
    Ledger BacklogState :=
  ids.foldlM (acknowledgeOne now) s

/-- The state an uncertain acknowledgement leaves a charge in. -/
def uncertainAcknowledgement (marked : Nat) (returned : Instant) (current : ChargeState) :
    ChargeState :=
  let origin := match current with
    | .durable origin | .uncertain (.acknowledgement origin _) _ => origin
    -- Publication read it durable before its producer observed a commit outcome.
    | .reserved | .uncertain .enqueue _ => .discovered
  .uncertain (.acknowledgement origin returned) marked

/-- One operation of `mark_acknowledgement_uncertain`. -/
def markOne (marked : Nat) (returned : Instant) (s : BacklogState) (id : QueuedOperationId) :
    Ledger BacklogState := do
  match ← s.transition id (uncertainAcknowledgement marked returned) with
  | (s, some (.uncertain .enqueue _)) => return s.count (.discovered id)
  | (s, _) => return s

/-- `mark_acknowledgement_uncertain`. -/
def markAcknowledgementUncertain (s : BacklogState) (ids : List QueuedOperationId)
    (returned : Instant) : Ledger BacklogState :=
  ids.foldlM (markOne s.reconcileClock returned) s

/-- A stored operation: its ID, entity and encoded size. -/
abbrev StoredOperation := QueuedOperationId × IndexEntity × UInt64

/-- The charge of a stored operation of `target`. -/
def storedCharge (target : QueueTarget) (operation : StoredOperation) : OperationCharge :=
  ⟨target, operation.2.1, operation.1, operation.2.2⟩

/-- `load_durable`: charges the durable operations of one queue found at open. -/
def loadDurable (s : BacklogState) (target : QueueTarget) (operations : List StoredOperation) :
    Ledger BacklogState :=
  operations.foldlM (fun s operation => s.discover (storedCharge target operation)) s

/-- `ReservationOutcome`. -/
inductive ReservationOutcome where
  | committed
  | aborted
  | uncertain
deriving DecidableEq

/-- The state a returned enqueue commit leaves a reserved charge in; others keep theirs. -/
def settleReserved (settled : ChargeState) : ChargeState → ChargeState
  | .reserved => settled
  | seen => seen

/-- One operation of `resolve`. -/
def resolveOne (outcome : ReservationOutcome) (now : Instant) (marked : Nat) (s : BacklogState)
    (id : QueuedOperationId) : Ledger BacklogState := do
  match outcome with
  | .committed =>
    let s := s.count (.committed id)
    match ← s.transition id (settleReserved (.durable (.committed now))) with
    | (s, some .reserved) => s.readmit id
    | (s, _) => return s
  | .aborted =>
    let (s, _) ← s.release id
    return s
  | .uncertain =>
    match ← s.transition id (settleReserved (.uncertain .enqueue marked)) with
    | (s, some .reserved) => s.readmit id
    -- Publication already acknowledged it, or attempted to.
    | (s, _) => return s.count (.discovered id)

/-- `resolve`: records an enqueue commit's outcome.  The worker is woken when the admissions
    changed. -/
def resolve (s : BacklogState) (ids : List QueuedOperationId) (outcome : ReservationOutcome)
    (now : Instant) : Ledger (BacklogState × Bool) := do
  let final ← ids.foldlM (resolveOne outcome now s.reconcileClock) s
  return (final, final.admissions ≠ s.admissions)

/-! ## §4. Reconciliation. -/

/-- `begin_reconciliation`: the clock of the ticket is the new clock. -/
def beginReconciliation (s : BacklogState) : BacklogState × Nat :=
  ({ s with reconcileClock := saturatingAdd s.reconcileClock 1 },
    saturatingAdd s.reconcileClock 1)

/-- One operation of the first loop of `finish_reconciliation`. -/
def presentOne (target : QueueTarget) (acc : BacklogState × Finset QueuedOperationId)
    (operation : StoredOperation) : Ledger (BacklogState × Finset QueuedOperationId) := do
  match acc.1.charges.lookup operation.1 with
  | none => return (← acc.1.discover (storedCharge target operation), acc.2)
  | some charge =>
    if charge.state.isUncertain then return (acc.1, Insert.insert operation.1 acc.2) else return acc

/-- The first loop of `finish_reconciliation`: charges unknown operations and collects the present
    uncertain ones. -/
def discoverPresent (s : BacklogState) (target : QueueTarget) (present : List StoredOperation) :
    Ledger (BacklogState × Finset QueuedOperationId) :=
  present.foldlM (presentOne target) (s, ∅)

/-- The uncertain charge `id` as `finish_reconciliation` settles it, if it does. -/
def settlement (s : BacklogState) (ticket : Nat) (presentUncertain : Finset QueuedOperationId)
    (id : QueuedOperationId) :
    Ledger (Option (QueuedOperationId × UncertainCommit × Bool)) := do
  let some charge := s.charges.lookup id | throw .retainedUncertain
  match charge.state with
  | .uncertain commit marked =>
    let present := decide (id ∈ presentUncertain)
    let proven := present && decide (commit = .enqueue)
    return if proven || decide (marked < ticket) then some (id, commit, present) else none
  | .reserved | .durable _ => throw .onlyUncertain

/-- One settled charge of `finish_reconciliation`. -/
def settleOne (now : Instant) (acc : BacklogState × Nat)
    (settled : QueuedOperationId × UncertainCommit × Bool) : Ledger (BacklogState × Nat) := do
  match settled with
  | (id, .enqueue, true) =>
    let (s, _) ← acc.1.transition id (fun _ => .durable .discovered)
    return (s.count (.discovered id), acc.2)
  | (id, .enqueue, false) =>
    let (s, _) ← acc.1.release id
    return (s, acc.2 + 1)
  | (id, .acknowledgement origin _, true) =>
    let (s, _) ← acc.1.transition id (fun _ => .durable origin)
    return (s, acc.2)
  | (id, .acknowledgement _ _, false) =>
    match ← acc.1.release id with
    | (_, none) => throw .settledRetained
    | (s, some charge) => return (s.countAcknowledgement id charge.state now, acc.2 + 1)

/-- `finish_reconciliation`: settles `target`'s uncertain charges against a flushed read of its
    queue, returning how many were released. -/
def finishReconciliation (s : BacklogState) (order : VisitOrder) (ticket : Nat)
    (target : QueueTarget) (present : List StoredOperation) (now : Instant) :
    Ledger (BacklogState × Nat) := do
  let (s, presentUncertain) ← s.discoverPresent target present
  match s.uncertain.lookup target with
  | none => return (s, 0)
  | some ids =>
    let settled ← (order.visit ids).mapM (s.settlement ticket presentUncertain)
    (settled.filterMap (fun item => item)).foldlM (settleOne now) (s, 0)

end BacklogState

/-! ## §5. Reservations. -/

/-- The phases in which a caller can hold a reservation.  `Resolved` is left out: the methods that
    reach it consume the reservation, and dropping it then does nothing. -/
inductive ReservationPhase where
  /-- Not submitted: dropping it is a definite abort. -/
  | staged
  /-- Submitted: dropping it leaves the outcome uncertain. -/
  | committing
deriving DecidableEq

/-- Capacity reserved by one foreground transaction. -/
structure Reservation where
  ids : List QueuedOperationId
  phase : ReservationPhase
deriving DecidableEq

namespace Reservation

/-- `finish`, behind `committed`, `aborted` and `uncertain`. -/
def finish (reservation : Reservation) (s : BacklogState) (outcome : BacklogState.ReservationOutcome)
    (now : Instant) : Ledger (BacklogState × Bool) :=
  s.resolve reservation.ids outcome now

/-- `drop` of an unresolved reservation. -/
def drop (reservation : Reservation) (s : BacklogState) (now : Instant) :
    Ledger (BacklogState × Bool) :=
  match reservation.phase with
  | .staged => reservation.finish s .aborted now
  | .committing => reservation.finish s .uncertain now

end Reservation

end HelixDb.Backlog
