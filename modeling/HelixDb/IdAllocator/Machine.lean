/-
  HelixDb.IdAllocator.Machine

  **THE ID ALLOCATOR AS A MACHINE**: calls and the background refill as tasks
  that interleave at every atomic operation.

  A task's `Phase` is its program counter with the locals still needed; one
  step of a task is one atomic load, store or read-modify-write, one lock
  operation or one storage request of the source.  A task may be abandoned in
  any phase: an error and a cancelled future both end it there, dropping the
  guard it holds.

  Storage is one register.  A write is applied by a step of its own, before the
  attempt that submitted it ends or, when the attempt was abandoned, later or
  never.  Writes take effect in the order of their submission; a read returns
  what has taken effect, whatever is still pending.  A crash keeps what was
  applied.

  The codec of the key and the type-safe wrappers add nothing and are left out;
  `shutdown` appears with the only thing it writes, the refill lifecycle.
-/
import HelixDb.Lib.Machine
import HelixDb.IdAllocator.Lease

namespace HelixDb.IdAllocator

open HelixDb.Lib HelixDb.Encoding

/-! ## §1. Shared state. -/

/-- The settings of `new_with_refill_threshold`; its assertion is the field `leaseSize_ne_zero`. -/
structure Config where
  leaseSize : UInt64
  refillThreshold : UInt64
  leaseSize_ne_zero : leaseSize ≠ 0

/-- A `Range<u64>` of IDs. -/
structure IdRange where
  start : Nat
  stop : Nat
deriving DecidableEq

/-- A range holds its start and not its end. -/
instance : Membership Nat IdRange where
  mem ids id := ids.start ≤ id ∧ id < ids.stop

/-- `RefillLifecycle`. -/
inductive RefillLifecycle where
  | idle
  | inFlight
  | closingInFlight
  | closed
deriving DecidableEq

/-- `RefillCompletion::drop`; `none` is its `unreachable!`. -/
def RefillLifecycle.completed? : RefillLifecycle → Option RefillLifecycle
  | .inFlight => some .idle
  | .closingInFlight => some .closed
  | .idle | .closed => none

/-- The write `shutdown` makes in each lifecycle; it then waits or returns. -/
def RefillLifecycle.shutdown : RefillLifecycle → RefillLifecycle
  | .idle => .closed
  | .inFlight => .closingInFlight
  | .closingInFlight => .closingInFlight
  | .closed => .closed

/-- Storage and the fields all tasks of one allocator share. -/
structure Shared where
  /-- The value stored under the watermark key. -/
  stored : Option Bytes
  /-- Submitted writes whose attempts were abandoned, oldest first. -/
  abandoned : List Nat
  nextId : Nat
  leaseEnd : Nat
  /-- The task that holds `extend_lock`. -/
  extendLock : Option Nat
  refillLifecycle : RefillLifecycle

/-- What a read of the watermark key returns, zero when it cannot. -/
def Shared.watermark (sh : Shared) : Nat :=
  match loadPersistedWatermark sh.stored with
  | .ok value => value
  | .error _ => 0

/-! ## §2. Tasks. -/

/-- What a task does once its lease is extended. -/
inductive After where
  | allocated (ids : IdRange)
  | reserved (next : Nat)
  | refilled
deriving DecidableEq

/-- The program counter of a task, with the locals it still reads. -/
inductive Phase where
  -- `allocate` and `allocate_batch`
  | entered (count : Nat)
  | claiming (count : Nat)
  | claimed (ids : IdRange)
  -- `ensure_lease_covers_claimed_ids`
  | coverWaiting (ids : IdRange)
  | coverLocked (ids : IdRange)
  | coverNext (ids : IdRange) (next : Nat)
  -- `initialize_and_allocate`
  | initWaiting (count : Nat)
  | initLocked (count : Nat)
  | initClaiming (count leaseEnd : Nat)
  | initLoading (count : Nat)
  | initStoring (count persistedCounter : Nat)
  | initFreshClaiming (count persistedCounter : Nat)
  -- `reserve_at_least`
  | reserveWaiting (next : Nat)
  | reserveLoading (next : Nat)
  | reserveNext (next persistedCounter : Nat)
  | reserveRaising (next persistedCounter target : Nat)
  | reserveLease (next persistedCounter : Nat)
  | reserveCompare (next persistedCounter currentLeaseEnd : Nat)
  -- `refill_if_needed`
  | refillWaiting
  | refillLocked
  | refillNext (next : Nat)
  -- `persist_lease_extension`
  | extending (currentLeaseEnd : Nat) (after : After)
  | putting (newLeaseEnd : Nat) (after : After)
  | applied (newLeaseEnd : Nat) (after : After)
  /-- The guarded part is done; the guard is about to be dropped. -/
  | covered (after : After)
  -- `start_refill_if_needed`
  | lowWater (ids : IdRange)
  | lowWaterNext (ids : IdRange) (next : Nat)
  | startRefill (ids : IdRange)
deriving DecidableEq

namespace Phase

/-- Whether the task holds the guard of `extend_lock`. -/
def holdsLock : Phase → Bool
  | coverLocked _ | coverNext _ _ | initLocked _ | initClaiming _ _ | initLoading _
  | initStoring _ _ | initFreshClaiming _ _ | reserveLoading _ | reserveNext _ _
  | reserveRaising _ _ _ | reserveLease _ _ | reserveCompare _ _ _ | refillLocked | refillNext _
  | extending _ _ | putting _ _ | applied _ _ | covered _ => true
  | _ => false

/-- Whether the task is the background refill, which holds a `RefillCompletion`. -/
def isRefill : Phase → Bool
  | refillWaiting | refillLocked | refillNext _ | extending _ .refilled | putting _ .refilled
  | applied _ .refilled | covered .refilled => true
  | _ => false

/-- The IDs the task has claimed and not returned. -/
def claim : Phase → Option IdRange
  | claimed ids | coverWaiting ids | coverLocked ids | coverNext ids _
  | extending _ (.allocated ids) | putting _ (.allocated ids) | applied _ (.allocated ids)
  | covered (.allocated ids) | lowWater ids | lowWaterNext ids _ | startRefill ids => some ids
  | _ => none

end Phase

/-- What an observer of the allocator and its store sees. -/
inductive Event where
  /-- A call starts as task `task`. -/
  | called (task : Nat)
  /-- The allocation call `task` returns `ids`. -/
  | returned (task : Nat) (ids : IdRange)
  /-- A call `reserve_at_least(next)` returns `Ok`. -/
  | reserved (next : Nat)
  /-- A write of the watermark takes effect. -/
  | persisted (watermark : Nat)
deriving DecidableEq

/-- The result of one step of a task; no phase when the task ends. -/
structure Move where
  shared : Shared
  phase : Option Phase
  events : List Event := []
  /-- Whether the step spawns the background refill. -/
  spawnsRefill : Bool := false

/-! ## §3. One atomic step of a task. -/

/-- `claim_ids`: `none` when the counter would leave the ID space. -/
def Shared.claimIds (sh : Shared) (count : Nat) : Option (Shared × IdRange) :=
  if sh.nextId + count ≤ U64_MAX then
    some ({ sh with nextId := sh.nextId + count }, ⟨sh.nextId, sh.nextId + count⟩)
  else none

/-- What ending a task does: drop the guard it holds and, for the refill, its completion. -/
def Shared.endTask (sh : Shared) (phase : Phase) : Shared :=
  { sh with
    extendLock := if phase.holdsLock then none else sh.extendLock
    refillLifecycle :=
      if phase.isRefill then sh.refillLifecycle.completed?.getD sh.refillLifecycle
      else sh.refillLifecycle }

/-- The target of the extension `persist_lease_extension` makes. -/
def Config.target (cfg : Config) (currentLeaseEnd next : Nat) : Nat :=
  extensionTarget currentLeaseEnd next cfg.leaseSize.toNat cfg.refillThreshold.toNat

/-- The step only reads shared state. -/
def goto (sh : Shared) (phase : Phase) : Option Move := some { shared := sh, phase := some phase }

/-- The call returns an error. -/
def failed (sh : Shared) (phase : Phase) : Option Move :=
  some { shared := sh.endTask phase, phase := none }

/-- Wait for `extend_lock`, then enter `phase` holding it. -/
def acquire (task : Nat) (sh : Shared) (phase : Phase) : Option Move :=
  if sh.extendLock = none then
    some { shared := { sh with extendLock := some task }, phase := some phase }
  else none

/-- `load_persisted_watermark`: what is stored, also while a write is pending. -/
def load (sh : Shared) (phase : Phase) (next : Nat → Phase) : Option Move :=
  match loadPersistedWatermark sh.stored with
  | .ok value => goto sh (next value)
  | .error _ => failed sh phase

/-- The next atomic step of task `task` in `phase`; `none` while it has to wait. -/
def advance (cfg : Config) (task : Nat) (sh : Shared) (phase : Phase) : Option Move :=
  match phase with
  | .entered count =>
    if sh.leaseEnd = 0 then goto sh (.initWaiting count) else goto sh (.claiming count)
  | .claiming count =>
    match sh.claimIds count with
    | none => failed sh phase
    | some (sh', ids) => goto sh' (.claimed ids)
  | .claimed ids =>
    if ids.stop > sh.leaseEnd then goto sh (.coverWaiting ids) else goto sh (.lowWater ids)
  | .coverWaiting ids => acquire task sh (.coverLocked ids)
  | .coverLocked ids => goto sh (.coverNext ids sh.nextId)
  | .coverNext ids next =>
    if next ≤ sh.leaseEnd then goto sh (.covered (.allocated ids))
    else goto sh (.extending sh.leaseEnd (.allocated ids))
  | .initWaiting count => acquire task sh (.initLocked count)
  | .initLocked count =>
    if 0 < sh.leaseEnd then goto sh (.initClaiming count sh.leaseEnd)
    else goto sh (.initLoading count)
  | .initClaiming count leaseEnd =>
    match sh.claimIds count with
    | none => failed sh phase
    | some (sh', ids) =>
      if ids.stop ≤ leaseEnd then goto sh' (.covered (.allocated ids))
      else goto sh' (.extending leaseEnd (.allocated ids))
  | .initLoading count => load sh phase (.initStoring count)
  | .initStoring count persistedCounter =>
    goto { sh with nextId := persistedCounter } (.initFreshClaiming count persistedCounter)
  | .initFreshClaiming count persistedCounter =>
    match sh.claimIds count with
    | none => failed sh phase
    | some (sh', ids) => goto sh' (.extending persistedCounter (.allocated ids))
  | .reserveWaiting next => acquire task sh (.reserveLoading next)
  | .reserveLoading next => load sh phase (.reserveNext next)
  | .reserveNext next persistedCounter =>
    goto sh (.reserveRaising next persistedCounter (max (max persistedCounter sh.nextId) next))
  | .reserveRaising next persistedCounter target =>
    goto { sh with nextId := max sh.nextId target } (.reserveLease next persistedCounter)
  | .reserveLease next persistedCounter =>
    goto sh (.reserveCompare next persistedCounter sh.leaseEnd)
  | .reserveCompare next persistedCounter currentLeaseEnd =>
    if currentLeaseEnd < sh.nextId ∨ persistedCounter < sh.nextId then
      goto sh (.extending (max currentLeaseEnd persistedCounter) (.reserved next))
    else goto sh (.covered (.reserved next))
  | .refillWaiting => acquire task sh .refillLocked
  | .refillLocked => goto sh (.refillNext sh.nextId)
  | .refillNext next =>
    if sh.leaseEnd - next > cfg.refillThreshold.toNat then goto sh (.covered .refilled)
    else goto sh (.extending sh.leaseEnd .refilled)
  | .extending currentLeaseEnd after =>
    if cfg.target currentLeaseEnd sh.nextId = currentLeaseEnd then goto sh (.covered after)
    else goto sh (.putting (cfg.target currentLeaseEnd sh.nextId) after)
  | .putting newLeaseEnd after =>
    -- The writes of abandoned attempts were submitted before this one.
    if sh.abandoned = [] then
      some { shared := { sh with stored := some (IdAllocationWatermarkValue.encode newLeaseEnd) }
             phase := some (.applied newLeaseEnd after)
             events := [.persisted newLeaseEnd] }
    else none
  | .applied newLeaseEnd after => goto { sh with leaseEnd := newLeaseEnd } (.covered after)
  | .covered (.allocated ids) => goto (sh.endTask phase) (.lowWater ids)
  | .covered (.reserved next) =>
    some { shared := sh.endTask phase, phase := none, events := [.reserved next] }
  | .covered .refilled => some { shared := sh.endTask phase, phase := none }
  | .lowWater ids => goto sh (.lowWaterNext ids sh.nextId)
  | .lowWaterNext ids next =>
    if sh.leaseEnd - next > cfg.refillThreshold.toNat then
      some { shared := sh, phase := none, events := [.returned task ids] }
    else goto sh (.startRefill ids)
  | .startRefill ids =>
    if sh.refillLifecycle = .idle then
      some { shared := { sh with refillLifecycle := .inFlight }
             phase := none
             events := [.returned task ids]
             spawnsRefill := true }
    else some { shared := sh, phase := none, events := [.returned task ids] }

/-! ## §4. The machine. -/

/-- The store, one allocator over it, and the tasks of its calls. -/
structure State where
  shared : Shared
  tasks : Nat → Option Phase
  /-- Tasks started so far; their numbers are never used again. -/
  started : Nat

/-- The public calls. -/
inductive Call where
  | allocate
  | allocateBatch (count : UInt64)
  | reserveAtLeast (next : UInt64)
deriving DecidableEq

/-- The first phase of a call; `none` for the empty batch, which returns at once. -/
def Call.entry : Call → Option Phase
  | .allocate => some (.entered 1)
  | .allocateBatch count => if count = 0 then none else some (.entered count.toNat)
  | .reserveAtLeast next => some (.reserveWaiting next.toNat)

/-- What the callers, the scheduler, the store and the operator do. -/
inductive Action where
  /-- A caller makes a call. -/
  | call (call : Call)
  /-- The scheduler runs one atomic step of a task. -/
  | run (task : Nat)
  /-- A task fails or is cancelled; a write it is waiting for stays submitted or is lost. -/
  | abandon (task : Nat) (staysSubmitted : Bool)
  /-- The oldest write of an abandoned attempt takes effect or is lost. -/
  | settle (takesEffect : Bool)
  /-- `shutdown` writes the refill lifecycle. -/
  | shutdown
  /-- The process ends and a new one opens the store. -/
  | restart
deriving DecidableEq

/-- A freshly built allocator over a store. -/
def Shared.opened (stored : Option Bytes) : Shared :=
  { stored, abandoned := [], nextId := 0, leaseEnd := 0, extendLock := none,
    refillLifecycle := .idle }

/-- The state in which an allocator was just built over a store holding `stored`. -/
def State.opened (stored : Option Bytes) : State :=
  { shared := .opened stored, tasks := fun _ => none, started := 0 }

/-- The state after task `task` made `move`. -/
def State.apply (s : State) (task : Nat) (move : Move) : State :=
  let tasks := Function.update s.tasks task move.phase
  if move.spawnsRefill then
    { shared := move.shared
      tasks := Function.update tasks s.started (some .refillWaiting)
      started := s.started + 1 }
  else { shared := move.shared, tasks, started := s.started }

/-- The writes left submitted when a task in `phase` is abandoned. -/
def Phase.leaves (staysSubmitted : Bool) : Phase → List Nat
  | .putting newLeaseEnd _ => if staysSubmitted then [newLeaseEnd] else []
  | _ => []

/-- One action. -/
def step (cfg : Config) (s : State) : Action → Option (State × List Event)
  | .call call =>
    match call.entry with
    | some phase =>
      some ({ s with tasks := Function.update s.tasks s.started (some phase)
                     started := s.started + 1 }, [.called s.started])
    | none =>
      some ({ s with started := s.started + 1 },
        [.called s.started, .returned s.started ⟨0, 0⟩])
  | .run task => do
    let phase ← s.tasks task
    let move ← advance cfg task s.shared phase
    return (s.apply task move, move.events)
  | .abandon task staysSubmitted => do
    let phase ← s.tasks task
    let ended := s.shared.endTask phase
    return ({ s with
      shared := { ended with abandoned := ended.abandoned ++ phase.leaves staysSubmitted }
      tasks := Function.update s.tasks task none }, [])
  | .settle takesEffect =>
    match s.shared.abandoned with
    | [] => none
    | write :: rest =>
      if takesEffect then
        some ({ s with
          shared := { s.shared with
            stored := some (IdAllocationWatermarkValue.encode write), abandoned := rest } },
          [.persisted write])
      else some ({ s with shared := { s.shared with abandoned := rest } }, [])
  | .shutdown =>
    some ({ s with
      shared := { s.shared with refillLifecycle := s.shared.refillLifecycle.shutdown } }, [])
  | .restart =>
    some ({ s with shared := .opened s.shared.stored, tasks := fun _ => none }, [])

/-- The allocator as a machine. -/
def machine (cfg : Config) : Machine State Action Event := ⟨step cfg⟩

end HelixDb.IdAllocator
