/-
  HelixDb.Backlog.State

  **THE BACKLOG LEDGER'S STATE**: charges of retained operations and the
  aggregates kept beside them.

  The worker handle and the lock are left out: every operation of the ledger
  runs under the lock.  Counters of in-memory entries and of events are natural
  numbers; the member reference count is a `u32` that wraps, as the release
  profile compiles it.
-/
import HelixDb.Lib.FinMap
import HelixDb.Lib.Saturating
import HelixDb.Keys.Scope
import HelixDb.Lifecycle.Identifiers
import HelixDb.OperationQueue.Value

namespace HelixDb.Backlog

open HelixDb.Lib HelixDb.Keys HelixDb.Lifecycle

export HelixDb.Queue (QueuedOperationId IndexEntity)

/-! ## §1. Targets and charges. -/

/-- One logical index across all of its generations. -/
@[ext] structure LogicalIndex where
  scope : DataScope
  indexId : IndexId
deriving DecidableEq

/-- Logical indexes in the derived order: by scope, then by ID. -/
instance : LinearOrder LogicalIndex :=
  LinearOrder.lift' (fun index => toLex (index.scope, index.indexId)) (by
    intro a b h
    obtain ⟨hscope, hid⟩ := Prod.mk.inj (toLex.injective h)
    exact LogicalIndex.ext hscope hid)

/-- One directly addressable generation queue. -/
structure QueueTarget where
  scope : DataScope
  indexId : IndexId
  generation : IndexGenerationId
deriving DecidableEq

/-- `QueueTarget::logical_index`. -/
def QueueTarget.logicalIndex (target : QueueTarget) : LogicalIndex :=
  ⟨target.scope, target.indexId⟩

/-- `OPERATION_OVERHEAD_BYTES`. -/
def OPERATION_OVERHEAD_BYTES : Nat := 576

/-- `charged_bytes`: the bytes a record of `encodedBytes` counts toward its index's limit. -/
def chargedBytes (encodedBytes : UInt64) : Nat :=
  saturatingAdd encodedBytes.toNat OPERATION_OVERHEAD_BYTES

/-- One operation's admission charge. -/
structure OperationCharge where
  target : QueueTarget
  entity : IndexEntity
  id : QueuedOperationId
  encodedBytes : UInt64
deriving DecidableEq

/-- A point in time, in nanoseconds. -/
abbrev Instant := Nat

/-- How the ledger learned that an operation is durable. -/
inductive DurableOrigin where
  | committed (instant : Instant)
  | discovered
deriving DecidableEq

/-- The commit whose outcome is unknown. -/
inductive UncertainCommit where
  | enqueue
  | acknowledgement (origin : DurableOrigin) (returned : Instant)
deriving DecidableEq

/-- What is known of a charge's operation. -/
inductive ChargeState where
  | reserved
  | durable (origin : DurableOrigin)
  | uncertain (commit : UncertainCommit) (marked : Nat)
deriving DecidableEq

/-- `is_uncertain`. -/
def ChargeState.isUncertain : ChargeState → Bool
  | .uncertain _ _ => true
  | .reserved | .durable _ => false

/-- The retained capacity of one operation. -/
structure Charge where
  target : QueueTarget
  entity : IndexEntity
  charged : Nat
  state : ChargeState
deriving DecidableEq

/-! ## §2. Aggregates. -/

/-- Outstanding work of one generation. -/
structure GenerationUsage where
  operations : Nat
  /-- The generation's latest admission. -/
  latest : Nat
deriving DecidableEq

/-- A `(generation, entity)` member of a logical index. -/
abbrev Member := IndexGenerationId × IndexEntity

/-- Current retained work for one logical index. -/
structure IndexUsage where
  retainedBytes : Nat
  /-- Outstanding operation references of each member, a `u32`. -/
  members : FinMap Member Nat
  generations : FinMap IndexGenerationId GenerationUsage

/-- `IndexUsage::default`. -/
def IndexUsage.empty : IndexUsage := ⟨0, ∅, ∅⟩

/-- Monotonic per-operation outcomes since the ledger was created, `u64`s in the source: one
    for every event, so they do not overflow while there are fewer than `2 ^ 64` operations. -/
structure LedgerOutcomes where
  committed : Nat
  discovered : Nat
  acknowledged : Nat
  acknowledgedCensored : Nat
deriving DecidableEq

/-! ## §3. Publication lag. -/

/-- Below it every microsecond has its own bucket. -/
def LINEAR_MICROS : Nat := 16
/-- The bits of a bucket's place between two powers of two. -/
def SUB_BUCKET_BITS : Nat := 3

/-- `bucket_floor`: lower bound of the bucket holding `micros`. -/
def bucketFloor (micros : Nat) : Nat :=
  if micros < LINEAR_MICROS then micros
  else (micros >>> (Nat.log2 micros - SUB_BUCKET_BITS)) <<< (Nat.log2 micros - SUB_BUCKET_BITS)

/-- Cumulative log-linear histogram of publication lag in microseconds. -/
structure PublicationLagHistogram where
  buckets : FinMap Nat Nat
  count : Nat
  sumMicros : Nat
  maxMicros : Nat

/-- `PublicationLagHistogram::default`. -/
def PublicationLagHistogram.empty : PublicationLagHistogram := ⟨∅, 0, 0, 0⟩

/-- `record`: one observed lag. -/
def PublicationLagHistogram.record (lag : PublicationLagHistogram) (micros : Nat) :
    PublicationLagHistogram :=
  { buckets := lag.buckets.insert (bucketFloor micros)
      ((lag.buckets.lookup (bucketFloor micros)).getD 0 + 1)
    count := lag.count + 1
    sumMicros := saturatingAdd lag.sumMicros micros
    maxMicros := max lag.maxMicros micros }

/-! ## §4. The state. -/

/-- An increment of an outcome counter, with the operation it is for. -/
inductive Counted where
  | committed (id : QueuedOperationId)
  | discovered (id : QueuedOperationId)
  | acknowledged (id : QueuedOperationId)
deriving DecidableEq

/-- The ledger, as its mutex guards it. -/
structure BacklogState where
  indexes : FinMap LogicalIndex IndexUsage
  /-- The latest admission issued, a `u64` in the source. -/
  admissions : Nat
  charges : FinMap QueuedOperationId Charge
  /-- The IDs of uncertain charges, by queue target. -/
  uncertain : FinMap QueueTarget (Finset QueuedOperationId)
  reconcileClock : Nat
  outcomes : LedgerOutcomes
  lag : PublicationLagHistogram
  /-- The operations behind `outcomes`, oldest first.  The source keeps the counters only. -/
  counted : List Counted

/-- `BacklogState::default`. -/
def BacklogState.empty : BacklogState :=
  ⟨∅, 0, ∅, ∅, 0, ⟨0, 0, 0, 0⟩, .empty, []⟩

/-- The `assert!`, `expect`, `unreachable!` and indexing sites of the ledger. -/
inductive PanicSite where
  /-- "charges enter the ledger reserved or durable" -/
  | enteredUncertain
  /-- indexing `self.charges[&id]` -/
  | readmittedCharge
  /-- "a retained charge's generation is counted" -/
  | countedGeneration
  /-- "a retained charge's logical index has usage" -/
  | indexUsage
  /-- "a retained charge's member is counted" -/
  | countedMember
  /-- "an uncertain charge's target is indexed" -/
  | indexedTarget
  /-- "an uncertain charge is indexed under its target" -/
  | indexedUncertain
  /-- "an indexed uncertain charge is retained" -/
  | retainedUncertain
  /-- "the uncertain index holds only uncertain charges" -/
  | onlyUncertain
  /-- "a settled charge is retained" -/
  | settledRetained
deriving DecidableEq

/-- A ledger computation, which may panic. -/
abbrev Ledger (α : Type) := Except PanicSite α

end HelixDb.Backlog
