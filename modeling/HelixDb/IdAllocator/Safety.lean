/-
  HelixDb.IdAllocator.Safety

  **WHAT EVERY TASK CAN RELY ON**: the invariant of the shared fields and of
  every task's program counter, kept by every step.

  The argument is rely/guarantee.  `Change` says what one atomic step of a task
  may do to the shared fields; `Rely` is what that leaves to every other task;
  `PhaseOk.stable` says that what a phase knows survives it.

  Everything is stated for both kinds of runs: those in which the write of an
  abandoned attempt may take effect `late`, after the attempt ended, and those
  in which it never does.  In the former a read may be out of date before it is
  used, and only returned IDs bound later ones; in the latter confirmed
  reservations do so too.

    • `advance_spec` — the inversion of one step of a task;
    • `inv_step` — every action keeps the invariant.
-/
import HelixDb.IdAllocator.Machine

namespace HelixDb.IdAllocator

open HelixDb.Lib HelixDb.Encoding List
open IdAllocationWatermarkValue (encode decode_encode decode)

/-! ## §1. What a history promises. -/

variable {late : Bool}

/-- The bound an event puts under all later allocations: the end of a returned range and, unless
    writes take effect late, the argument of a successful reservation. -/
def Event.bound (late : Bool) : Event → Nat
  | .returned _ ids => ids.stop
  | .reserved next => if late then 0 else next
  | .called _ | .persisted _ => 0

/-- The bound a history puts under later allocations. -/
def floor (late : Bool) : List Event → Nat
  | [] => 0
  | event :: rest => max (event.bound late) (floor late rest)

theorem floor_append (xs ys : List Event) :
    floor late (xs ++ ys) = max (floor late xs) (floor late ys) := by
  induction xs with
  | nil => simp [floor]
  | cons x xs ih => rw [cons_append, floor, ih, floor, max_assoc]

@[simp] theorem floor_singleton (event : Event) : floor late [event] = event.bound late :=
  Nat.max_zero (event.bound late)

@[simp] theorem max_floor_nil (bound : Nat) : max bound (floor late []) = bound :=
  Nat.max_zero bound

theorem bound_le_floor {event : Event} {history : List Event} (h : event ∈ history) :
    event.bound late ≤ floor late history := by
  induction history with
  | nil => cases h
  | cons x xs ih =>
    rw [floor]
    rcases mem_cons.mp h with rfl | hmem
    · exact le_max_left _ _
    · exact le_trans (ih hmem) (le_max_right _ _)

/-! ## §2. The shared invariant. -/

/-- The stored watermark and the submitted writes that may still replace it. -/
def Shared.marks (late : Bool) (sh : Shared) : List Nat :=
  sh.watermark :: if late then sh.abandoned else []

/-- The invariant of the shared fields, given the bound of the history. -/
structure SharedOk (late : Bool) (sh : Shared) (bound : Nat) : Prop where
  next_le : sh.nextId ≤ U64_MAX
  marks_le : ∀ mark ∈ sh.marks late, mark ≤ U64_MAX
  lease_le : ∀ mark ∈ sh.marks late, sh.leaseEnd ≤ mark
  bound_le : ∀ mark ∈ sh.marks late, bound ≤ mark
  bound_le_next : 0 < sh.leaseEnd → bound ≤ sh.nextId

/-- The task read `value` from storage under the lock.  A late write may have replaced it since,
    but neither the lease nor what the history promised is past it. -/
structure Loaded (late : Bool) (sh : Shared) (bound value : Nat) : Prop where
  le_max : value ≤ U64_MAX
  lease_le : sh.leaseEnd ≤ value
  bound_le : bound ≤ value
  current : late = false → value = sh.watermark

/-- `base` is a watermark an extension may start from: a published lease, or a watermark read from
    storage with the counter at or past it. -/
def IsBase (late : Bool) (sh : Shared) (bound base : Nat) : Prop :=
  base = sh.leaseEnd ∧ 0 < sh.leaseEnd ∨ Loaded late sh bound base ∧ base ≤ sh.nextId

/-- The write of `target` took effect and no other is pending. -/
def InEffect (sh : Shared) (target : Nat) : Prop := target = sh.watermark ∧ sh.abandoned = []

/-- What a task knows in each phase. -/
def PhaseOk (late : Bool) (sh : Shared) (bound : Nat) : Phase → Prop
  | .entered count | .initWaiting count | .initLocked count => 0 < count
  | .reserveWaiting next | .reserveLoading next => next ≤ U64_MAX
  | .claiming _ | .claimed _ | .coverWaiting _ | .coverLocked _ | .refillWaiting | .refillLocked
  | .refillNext _ => 0 < sh.leaseEnd
  | .coverNext ids next => 0 < sh.leaseEnd ∧ ids.stop ≤ next ∧ next ≤ sh.nextId
  | .initClaiming _ leaseEnd => leaseEnd = sh.leaseEnd ∧ 0 < sh.leaseEnd
  | .initLoading count => 0 < count ∧ sh.leaseEnd = 0
  | .initStoring count value => 0 < count ∧ sh.leaseEnd = 0 ∧ Loaded late sh bound value
  | .initFreshClaiming count value =>
    0 < count ∧ sh.leaseEnd = 0 ∧ Loaded late sh bound value ∧ value ≤ sh.nextId
  | .reserveNext next value => next ≤ U64_MAX ∧ Loaded late sh bound value
  | .reserveRaising next value target =>
    Loaded late sh bound value ∧ value ≤ target ∧ next ≤ target ∧ target ≤ U64_MAX
  | .reserveLease next value =>
    Loaded late sh bound value ∧ value ≤ sh.nextId ∧ next ≤ sh.nextId
  | .reserveCompare next value leaseEnd =>
    Loaded late sh bound value ∧ value ≤ sh.nextId ∧ next ≤ sh.nextId ∧ leaseEnd = sh.leaseEnd
  | .extending base (.allocated _) => IsBase late sh bound base ∧ base < sh.nextId
  | .extending base (.reserved next) =>
    IsBase late sh bound base ∧ next ≤ sh.nextId ∧ Loaded late sh bound base
  | .extending base .refilled => IsBase late sh bound base ∧ 0 < sh.leaseEnd
  | .putting target after =>
    sh.leaseEnd ≤ target ∧ 0 < target ∧ target ≤ U64_MAX ∧ bound ≤ target ∧
      bound ≤ sh.nextId ∧ AfterOk sh target after
  | .applied target after =>
    InEffect sh target ∧ sh.leaseEnd ≤ target ∧ 0 < target ∧ bound ≤ sh.nextId ∧
      AfterOk sh target after
  | .covered (.allocated ids) => ids.stop ≤ sh.leaseEnd ∧ 0 < sh.leaseEnd
  | .covered (.reserved next) => (late = false → next ≤ sh.watermark) ∧ next ≤ sh.nextId
  | .covered .refilled => True
  | .lowWater ids | .lowWaterNext ids _ | .startRefill ids =>
    ids.stop ≤ sh.leaseEnd ∧ 0 < sh.leaseEnd
where
  /-- The extension to `target` covers what its caller needs. -/
  AfterOk (sh : Shared) (target : Nat) : After → Prop
    | .allocated ids => ids.stop ≤ target
    | .reserved next => next ≤ target ∧ next ≤ sh.nextId
    | .refilled => True

/-! ## §3. What one step may do, and what it leaves to the others. -/

/-- The effects one step of `task` may have on the shared fields, with the events it emits. -/
inductive Change (late : Bool) (task : Nat) (bound : Nat) (sh : Shared) :
    Shared → List Event → Prop where
  | read : Change late task bound sh sh []
  | acquire (hfree : sh.extendLock = none) :
      Change late task bound sh { sh with extendLock := some task } []
  | raise {next : Nat} (howner : 0 < sh.leaseEnd ∨ sh.extendLock = some task)
      (hle : sh.nextId ≤ next) (hmax : next ≤ U64_MAX) :
      Change late task bound sh { sh with nextId := next } []
  | store {value : Nat} (hlock : sh.extendLock = some task) (hlease : sh.leaseEnd = 0)
      (hmax : value ≤ U64_MAX) : Change late task bound sh { sh with nextId := value } []
  | put {target : Nat} (hlock : sh.extendLock = some task) (hclear : sh.abandoned = [])
      (hlease : sh.leaseEnd ≤ target) (hbound : bound ≤ target) (hmax : target ≤ U64_MAX) :
      Change late task bound sh
        { sh with stored := some (encode target) }
        [.persisted target]
  | publish {target : Nat} (hlock : sh.extendLock = some task) (heffect : InEffect sh target)
      (hlease : sh.leaseEnd ≤ target) (hbound : bound ≤ sh.nextId) :
      Change late task bound sh { sh with leaseEnd := target } []
  | release {lifecycle : RefillLifecycle} (hlock : sh.extendLock = some task) :
      Change late task bound sh { sh with extendLock := none, refillLifecycle := lifecycle } []
  | confirm {next : Nat} (hlock : sh.extendLock = some task)
      (hmark : late = false → next ≤ sh.watermark) (hnext : next ≤ sh.nextId) :
      Change late task bound sh { sh with extendLock := none } [.reserved next]
  | lifecycle {lifecycle : RefillLifecycle} :
      Change late task bound sh { sh with refillLifecycle := lifecycle } []
  | deliver {lifecycle : RefillLifecycle} {ids : IdRange} (hlease : ids.stop ≤ sh.leaseEnd)
      (hnext : ids.stop ≤ sh.nextId) :
      Change late task bound sh { sh with refillLifecycle := lifecycle } [.returned task ids]

/-- What the steps of other tasks and of the environment leave to `task`. -/
structure Rely (late : Bool) (task : Nat) (sh sh' : Shared) (bound bound' : Nat) : Prop where
  lease_le : sh.leaseEnd ≤ sh'.leaseEnd
  next_le : 0 < sh.leaseEnd → sh.nextId ≤ sh'.nextId
  /-- While `task` holds the lock, the lease is its own. -/
  lock : sh.extendLock = some task →
    sh'.extendLock = some task ∧ sh'.leaseEnd = sh.leaseEnd ∧ sh.nextId ≤ sh'.nextId
  /-- So is the storage, as long as no write of an abandoned attempt can take effect. -/
  storage : sh.extendLock = some task → late = false ∨ sh.abandoned = [] →
    sh'.watermark = sh.watermark
  clear : sh.extendLock = some task → sh.abandoned = [] → sh'.abandoned = []
  bound_le : sh.extendLock = some task →
    bound' ≤ max bound sh.leaseEnd ∧ bound' ≤ max bound sh.nextId

variable {bound task other base value : Nat} {sh sh' : Shared}

theorem watermark_of_stored (h : value ≤ U64_MAX)
    (hstored : sh.stored = some (encode value)) :
    sh.watermark = value := by
  simp only [Shared.watermark, hstored, loadPersistedWatermark,
    decode_encode h]

/-- The watermark reads the stored bytes only. -/
theorem watermark_congr (h : sh'.stored = sh.stored) :
    sh'.watermark = sh.watermark := by
  simp only [Shared.watermark, h]

theorem SharedOk.lease_le_watermark (h : SharedOk late sh bound) :
    sh.leaseEnd ≤ sh.watermark := h.lease_le _ mem_cons_self

theorem SharedOk.bound_le_watermark (h : SharedOk late sh bound) :
    bound ≤ sh.watermark := h.bound_le _ mem_cons_self

theorem SharedOk.watermark_le (h : SharedOk late sh bound) :
    sh.watermark ≤ U64_MAX := h.marks_le _ mem_cons_self

/-- With nothing pending the stored watermark is the only mark. -/
theorem marks_of_clear (h : sh.abandoned = []) : sh.marks late = [sh.watermark] := by
  rw [Shared.marks, h, ite_self]

/-- The shared invariant when only the marks change. -/
theorem SharedOk.remark (h : SharedOk late sh bound)
    (hnext : sh'.nextId = sh.nextId) (hlease : sh'.leaseEnd = sh.leaseEnd)
    (hmarks : ∀ mark ∈ sh'.marks late, mark ∈ sh.marks late ∨
      mark ≤ U64_MAX ∧ sh.leaseEnd ≤ mark ∧ bound ≤ mark) : SharedOk late sh' bound := by
  have hall : ∀ mark ∈ sh'.marks late,
      mark ≤ U64_MAX ∧ sh.leaseEnd ≤ mark ∧ bound ≤ mark := by
    intro mark hmem
    rcases hmarks mark hmem with hold | hnew
    · exact ⟨h.marks_le mark hold, h.lease_le mark hold, h.bound_le mark hold⟩
    · exact hnew
  refine ⟨hnext ▸ h.next_le, fun mark hmem => (hall mark hmem).1, ?_,
    fun mark hmem => (hall mark hmem).2.2, ?_⟩
  · rw [hlease]
    exact fun mark hmem => (hall mark hmem).2.1
  · rw [hlease, hnext]
    exact h.bound_le_next

section Changes

variable {task : Nat} {bound : Nat} {sh sh' : Shared} {events : List Event}

/-- A confirmed reservation is at or below every write that can still take effect. -/
theorem reserved_le_marks {next mark : Nat} (h : late = false → next ≤ sh.watermark)
    (hmem : mark ∈ sh.marks late) : (Event.reserved next).bound late ≤ mark := by
  cases late with
  | true => exact Nat.zero_le mark
  | false =>
    cases mem_singleton.mp hmem
    exact h rfl

theorem reserved_bound_le {next : Nat} : (Event.reserved next).bound late ≤ next := by
  cases late with
  | true => exact Nat.zero_le next
  | false => exact le_rfl

/-- Every step keeps the shared invariant. -/
theorem Change.sharedOk (hc : Change late task bound sh sh' events) (h : SharedOk late sh bound) :
    SharedOk late sh' (max bound (floor late events)) := by
  cases hc with
  | read =>
    rwa [max_floor_nil]
  | acquire hfree | release hlock | lifecycle =>
    rw [max_floor_nil]
    exact ⟨h.next_le, h.marks_le, h.lease_le, h.bound_le, h.bound_le_next⟩
  | raise howner hle hmax =>
    rw [max_floor_nil]
    exact ⟨hmax, h.marks_le, h.lease_le, h.bound_le,
      fun hpos => le_trans (h.bound_le_next hpos) hle⟩
  | store hlock hlease hmax =>
    rw [max_floor_nil]
    exact ⟨hmax, h.marks_le, h.lease_le, h.bound_le, fun hpos => absurd hlease hpos.ne'⟩
  | @put target hlock hclear hlease hbound hmax =>
    -- The only mark afterwards is the value just written.
    have hmarks : Shared.marks late
        { sh with stored := some (encode target) } = [target] := by
      rw [Shared.marks, watermark_of_stored hmax rfl]
      dsimp only
      rw [hclear, ite_self]
    rw [floor_singleton, show max bound ((Event.persisted target).bound late) = bound from
      Nat.max_zero bound]
    constructor
    · exact h.next_le
    · rw [hmarks]; simpa using hmax
    · rw [hmarks]; simpa using hlease
    · rw [hmarks]; simpa using hbound
    · exact h.bound_le_next
  | @publish target hlock heffect hlease hbound =>
    have hmarks : ∀ mark ∈ sh.marks late, target ≤ mark := by
      intro mark hmem
      rw [marks_of_clear heffect.2, mem_singleton] at hmem
      rw [hmem, heffect.1]
    rw [max_floor_nil]
    exact ⟨h.next_le, h.marks_le, hmarks, h.bound_le, fun _ => hbound⟩
  | confirm hlock hmark hnext =>
    rw [floor_singleton]
    exact ⟨h.next_le, h.marks_le, h.lease_le,
      fun mark hmem => max_le (h.bound_le mark hmem) (reserved_le_marks hmark hmem),
      fun hpos => max_le (h.bound_le_next hpos) (le_trans reserved_bound_le hnext)⟩
  | deliver hlease hnext =>
    rw [floor_singleton]
    exact ⟨h.next_le, h.marks_le, h.lease_le,
      fun mark hmem => max_le (h.bound_le mark hmem) (le_trans hlease (h.lease_le mark hmem)),
      fun hpos => max_le (h.bound_le_next hpos) hnext⟩

/-- The guarantee of every step is what the other tasks rely on. -/
theorem Change.rely (hc : Change late task bound sh sh' events) (hne : other ≠ task) :
    Rely late other sh sh' bound (max bound (floor late events)) := by
  have hother : sh.extendLock = some task → sh.extendLock ≠ some other := by
    intro hlock heq
    rw [hlock] at heq
    exact hne (Option.some.inj heq).symm
  cases hc with
  | read => constructor <;> simp +contextual [floor]
  | acquire hfree => constructor <;> simp +contextual [floor, hfree]
  | raise howner hle hmax =>
    refine ⟨le_rfl, fun _ => hle, fun hlock => ⟨hlock, rfl, hle⟩,
      fun _ _ => watermark_congr rfl, fun _ hclear => hclear, ?_⟩
    simp [floor]
  | store hlock hlease hmax => constructor <;> simp +contextual [floor, hother hlock, hlease]
  | put hlock hclear hlease hbound hmax =>
    constructor <;> simp +contextual [hother hlock]
  | publish hlock heffect hlease hbound =>
    constructor <;> simp +contextual [hother hlock, hlease]
  | release hlock | confirm hlock hmark hnext => constructor <;> simp +contextual [hother hlock]
  | lifecycle =>
    refine ⟨le_rfl, fun _ => le_rfl, fun hlock => ⟨hlock, rfl, le_rfl⟩,
      fun _ _ => rfl, fun _ hclear => hclear, ?_⟩
    simp [floor]
  | deliver hlease hnext =>
    refine ⟨le_rfl, fun _ => le_rfl, fun hlock => ⟨hlock, rfl, le_rfl⟩,
      fun _ _ => rfl, fun _ hclear => hclear, fun _ => ?_⟩
    rw [floor_singleton]
    exact ⟨max_le_max_left _ hlease, max_le_max_left _ hnext⟩

end Changes

variable {phase : Phase}

section Stability

variable {task : Nat} {bound bound' : Nat} {sh sh' : Shared}

theorem Loaded.stable (h : Loaded late sh bound value)
    (hr : Rely late task sh sh' bound bound') (hlock : sh.extendLock = some task) :
    Loaded late sh' bound' value := by
  have hlease := (hr.lock hlock).2.1
  refine ⟨h.le_max, hlease.le.trans h.lease_le,
    le_trans (hr.bound_le hlock).1 (max_le h.bound_le h.lease_le), fun hlate => ?_⟩
  exact (h.current hlate).trans (hr.storage hlock (.inl hlate)).symm

theorem IsBase.stable (h : IsBase late sh bound base)
    (hr : Rely late task sh sh' bound bound') (hlock : sh.extendLock = some task) :
    IsBase late sh' bound' base := by
  obtain ⟨-, hlease, hnext⟩ := hr.lock hlock
  rcases h with ⟨hbase, hpos⟩ | ⟨hloaded, hle⟩
  · left
    rw [hlease]
    exact ⟨hbase, hpos⟩
  · exact .inr ⟨hloaded.stable hr hlock, le_trans hle hnext⟩

theorem afterOk_stable {target : Nat} {after : After} (h : PhaseOk.AfterOk sh target after)
    (hnext : sh.nextId ≤ sh'.nextId) : PhaseOk.AfterOk sh' target after := by
  cases after with
  | allocated ids => exact h
  | reserved next => exact ⟨h.1, le_trans h.2 hnext⟩
  | refilled => trivial

/-- **What a phase knows is stable** under the steps of the others. -/
theorem PhaseOk.stable (h : PhaseOk late sh bound phase)
    (hlock : phase.holdsLock = true → sh.extendLock = some task)
    (hr : Rely late task sh sh' bound bound') : PhaseOk late sh' bound' phase := by
  have hlease := hr.lease_le
  cases phase with
  | entered | initWaiting | initLocked | reserveWaiting | reserveLoading => exact h
  | claiming | claimed | coverWaiting | coverLocked | refillWaiting | refillLocked | refillNext =>
    exact lt_of_lt_of_le h hlease
  | coverNext ids next =>
    exact ⟨lt_of_lt_of_le h.1 hlease, h.2.1, le_trans h.2.2 (hr.next_le h.1)⟩
  | initClaiming count leaseEnd =>
    exact ⟨h.1.trans (hr.lock (hlock rfl)).2.1.symm, lt_of_lt_of_le h.2 hlease⟩
  | initLoading count => exact ⟨h.1, (hr.lock (hlock rfl)).2.1.trans h.2⟩
  | initStoring count value =>
    exact ⟨h.1, (hr.lock (hlock rfl)).2.1.trans h.2.1, h.2.2.stable hr (hlock rfl)⟩
  | initFreshClaiming count value =>
    obtain ⟨-, hl, hn⟩ := hr.lock (hlock rfl)
    obtain ⟨hcount, hzero, hloaded, hle⟩ := h
    exact ⟨hcount, hl.trans hzero, hloaded.stable hr (hlock rfl), le_trans hle hn⟩
  | reserveNext next value => exact ⟨h.1, h.2.stable hr (hlock rfl)⟩
  | reserveRaising next value target => exact ⟨h.1.stable hr (hlock rfl), h.2⟩
  | reserveLease next value =>
    obtain ⟨-, -, hn⟩ := hr.lock (hlock rfl)
    exact ⟨h.1.stable hr (hlock rfl), le_trans h.2.1 hn, le_trans h.2.2 hn⟩
  | reserveCompare next value leaseEnd =>
    obtain ⟨-, hl, hn⟩ := hr.lock (hlock rfl)
    exact ⟨h.1.stable hr (hlock rfl), le_trans h.2.1 hn, le_trans h.2.2.1 hn,
      h.2.2.2.trans hl.symm⟩
  | extending base after =>
    obtain ⟨-, hl, hn⟩ := hr.lock (hlock rfl)
    cases after with
    | allocated ids => exact ⟨h.1.stable hr (hlock rfl), lt_of_lt_of_le h.2 hn⟩
    | reserved next =>
      exact ⟨h.1.stable hr (hlock rfl), le_trans h.2.1 hn, h.2.2.stable hr (hlock rfl)⟩
    | refilled => exact ⟨h.1.stable hr (hlock rfl), lt_of_lt_of_le h.2 hlease⟩
  | putting target after =>
    obtain ⟨-, hl, hn⟩ := hr.lock (hlock rfl)
    obtain ⟨hb, hb'⟩ := hr.bound_le (hlock rfl)
    obtain ⟨hle, hpos, hmax, hbound, hbnext, hafter⟩ := h
    exact ⟨hl.le.trans hle, hpos, hmax, le_trans hb (max_le hbound hle),
      le_trans hb' (max_le (le_trans hbnext hn) hn), afterOk_stable hafter hn⟩
  | applied target after =>
    obtain ⟨-, hl, hn⟩ := hr.lock (hlock rfl)
    obtain ⟨-, hb'⟩ := hr.bound_le (hlock rfl)
    obtain ⟨⟨hmark, hclear⟩, hle, hpos, hbnext, hafter⟩ := h
    have heffect : InEffect sh' target :=
      ⟨hmark.trans (hr.storage (hlock rfl) (.inr hclear)).symm, hr.clear (hlock rfl) hclear⟩
    exact ⟨heffect, hl.le.trans hle, hpos, le_trans hb' (max_le (le_trans hbnext hn) hn),
      afterOk_stable hafter hn⟩
  | covered after =>
    cases after with
    | allocated ids => exact ⟨le_trans h.1 hlease, lt_of_lt_of_le h.2 hlease⟩
    | reserved next =>
      refine ⟨fun hlate => ?_, le_trans h.2 (hr.lock (hlock rfl)).2.2⟩
      rw [hr.storage (hlock rfl) (.inl hlate)]
      exact h.1 hlate
    | refilled => trivial
  | lowWater | lowWaterNext | startRefill =>
    exact ⟨le_trans h.1 hlease, lt_of_lt_of_le h.2 hlease⟩

end Stability

/-! ## §4. The inversion of one step. -/

/-- What one step of `task` guarantees. -/
structure StepOk (late : Bool) (task : Nat) (sh : Shared) (bound : Nat) (move : Move) :
    Prop where
  change : Change late task bound sh move.shared move.events
  phase : ∀ next, move.phase = some next →
    PhaseOk late move.shared (max bound (floor late move.events)) next
  lock : ∀ next, move.phase = some next → next.holdsLock = true →
    move.shared.extendLock = some task
  spawn : move.spawnsRefill = true → 0 < move.shared.leaseEnd

variable {ids : IdRange}

section Advance

variable {cfg : Config} {task : Nat} {sh sh' : Shared} {bound : Nat} {phase next : Phase}
  {move : Move}

/-- A step that changes one shared field and enters `next`. -/
theorem stepOk_goto (hstep : goto sh' next = some move) 
    (hchange : Change late task bound sh sh' []) (hnext : PhaseOk late sh' bound next)
    (hlock : next.holdsLock = true → sh'.extendLock = some task) : StepOk late task sh bound move := by
  cases hstep
  refine ⟨hchange, ?_, ?_, fun h => absurd h Bool.false_ne_true⟩
  · rintro _ ⟨rfl⟩
    rwa [max_floor_nil]
  · rintro _ ⟨rfl⟩
    exact hlock

/-- Ending a task drops what it holds, and nothing else. -/
theorem endTask_change (hlock : phase.holdsLock = true → sh.extendLock = some task) :
    Change late task bound sh (sh.endTask phase) [] := by
  cases hheld : phase.holdsLock with
  | true =>
    simp only [Shared.endTask, hheld, if_true]
    exact .release (hlock hheld)
  | false =>
    simp only [Shared.endTask, hheld, Bool.false_eq_true, if_false]
    exact .lifecycle

theorem stepOk_failed (hstep : failed sh phase = some move)
    (hlock : phase.holdsLock = true → sh.extendLock = some task) : StepOk late task sh bound move := by
  cases hstep
  refine ⟨?_, fun _ h => absurd h (by simp), fun _ h => absurd h (by simp),
    fun h => absurd h Bool.false_ne_true⟩
  exact endTask_change hlock

theorem stepOk_acquire (hstep : acquire task sh next = some move)
    (hnext : PhaseOk late { sh with extendLock := some task } bound next) :
    StepOk late task sh bound move := by
  unfold acquire at hstep
  split_ifs at hstep with hfree
  exact stepOk_goto hstep (.acquire hfree) hnext (fun _ => rfl)

theorem stepOk_load {after : Nat → Phase} (hstep : load sh phase after = some move)
    (hlock : sh.extendLock = some task)
    (h : SharedOk late sh bound)
    (hafter : ∀ value, Loaded late sh bound value → PhaseOk late sh bound (after value)) :
    StepOk late task sh bound move := by
  unfold load at hstep
  split at hstep
  case h_1 value hload =>
    have hmark : sh.watermark = value := by
      simp only [Shared.watermark, hload]
    have hloaded : Loaded late sh bound value :=
      ⟨hmark ▸ h.watermark_le, hmark ▸ h.lease_le_watermark, hmark ▸ h.bound_le_watermark,
        fun _ => hmark.symm⟩
    exact stepOk_goto hstep .read (hafter value hloaded) (fun _ => hlock)
  case h_2 => exact stepOk_failed hstep (fun _ => hlock)

/-- Returning covered IDs, with or without starting a refill. -/
theorem stepOk_returned (lifecycle : RefillLifecycle) (spawns : Bool)
    (hp : ids.stop ≤ sh.leaseEnd ∧ 0 < sh.leaseEnd) (hclaim : ids.stop ≤ sh.nextId) :
    StepOk late task sh bound
      { shared := { sh with refillLifecycle := lifecycle }
        phase := none
        events := [.returned task ids]
        spawnsRefill := spawns } := by
  exact ⟨.deliver hp.1 hclaim, fun _ h => absurd h (by simp), fun _ h => absurd h (by simp),
    fun _ => hp.2⟩

theorem claimIds_some {count : Nat} (h : sh.claimIds count = some (sh', ids)) :
    sh.nextId + count ≤ U64_MAX ∧ sh' = { sh with nextId := sh.nextId + count } ∧
      ids = ⟨sh.nextId, sh.nextId + count⟩ := by
  unfold Shared.claimIds at h
  split_ifs at h with hle
  cases h
  exact ⟨hle, rfl, rfl⟩

theorem IsBase.facts (hb : IsBase late sh bound base) (h : SharedOk late sh bound) :
    sh.leaseEnd ≤ base ∧ base ≤ U64_MAX ∧ bound ≤ sh.nextId := by
  rcases hb with ⟨rfl, hpos⟩ | ⟨hloaded, hnext⟩
  · exact ⟨le_rfl, le_trans h.lease_le_watermark h.watermark_le, h.bound_le_next hpos⟩
  · exact ⟨hloaded.lease_le, hloaded.le_max, le_trans hloaded.bound_le hnext⟩

/-- The write an extension submits, or the reason it needs none. -/
theorem stepOk_extending {after : After} (h : SharedOk late sh bound)
    (hp : PhaseOk late sh bound (.extending base after)) (hlock : sh.extendLock = some task)
    (hclaim : ∀ ids, Phase.claim (.extending base after) = some ids → ids.stop ≤ sh.nextId)
    (hstep : advance cfg task sh (.extending base after) = some move) :
    StepOk late task sh bound move := by
  have hbase : IsBase late sh bound base := by
    cases after <;> exact hp.1
  obtain ⟨hlease, hmax, hbound⟩ := hbase.facts h
  have hge : base ≤ cfg.target base sh.nextId := le_extensionTarget
  have hcover : sh.nextId ≤ cfg.target base sh.nextId := next_le_extensionTarget h.next_le
  simp only [advance] at hstep
  split at hstep
  case isTrue heq =>
    refine stepOk_goto hstep .read ?_ (fun _ => hlock)
    cases after with
    | allocated ids =>
      -- The counter is past the base, so the target is too.
      have hpast := hp.2
      omega
    | reserved n =>
      obtain ⟨-, hn, hloaded⟩ := hp
      refine ⟨fun hlate => ?_, hn⟩
      have hmark := hloaded.current hlate
      omega
    | refilled => trivial
  case isFalse hne =>
    refine stepOk_goto hstep .read ?_ (fun _ => hlock)
    refine ⟨le_trans hlease hge, by omega, extensionTarget_le_max hmax, by omega, hbound, ?_⟩
    cases after with
    | allocated ids => exact le_trans (hclaim ids rfl) hcover
    | reserved n => exact ⟨le_trans hp.2.1 hcover, hp.2.1⟩
    | refilled => trivial

/-- **Inversion of one step**: from a state in which the shared invariant holds and the task knows
    what its phase says, the step is one of the allowed changes and establishes what the next
    phase says. -/
theorem advance_spec (h : SharedOk late sh bound) (hp : PhaseOk late sh bound phase)
    (hlock : phase.holdsLock = true → sh.extendLock = some task)
    (hclaim : ∀ ids, phase.claim = some ids → ids.stop ≤ sh.nextId)
    (hstep : advance cfg task sh phase = some move) : StepOk late task sh bound move := by
  cases phase with
  | entered count =>
    simp only [advance] at hstep
    split at hstep
    case isTrue => exact stepOk_goto hstep .read hp nofun
    case isFalse hpos =>
      exact stepOk_goto hstep .read (Nat.pos_of_ne_zero hpos) nofun
  | claiming count =>
    simp only [advance] at hstep
    split at hstep
    case h_1 => exact stepOk_failed hstep hlock
    case h_2 sh' ids hids =>
      obtain ⟨hmax, rfl, rfl⟩ := claimIds_some hids
      exact stepOk_goto hstep (.raise (.inl hp) (Nat.le_add_right _ _) hmax) hp nofun
  | claimed ids =>
    simp only [advance] at hstep
    split at hstep
    case isTrue => exact stepOk_goto hstep .read hp nofun
    case isFalse hle =>
      exact stepOk_goto hstep .read ⟨by omega, hp⟩ nofun
  | coverWaiting ids => exact stepOk_acquire hstep hp
  | coverLocked ids => exact stepOk_goto hstep .read ⟨hp, hclaim ids rfl, le_rfl⟩ hlock
  | coverNext ids next =>
    obtain ⟨hpos, hstop, hnext⟩ := hp
    simp only [advance] at hstep
    split at hstep
    case isTrue hle => exact stepOk_goto hstep .read ⟨by omega, hpos⟩ hlock
    case isFalse hgt =>
      -- The loaded counter may be stale by now, but it only grows.
      exact stepOk_goto hstep .read ⟨.inl ⟨rfl, hpos⟩, by omega⟩ hlock
  | initWaiting count => exact stepOk_acquire hstep hp
  | initLocked count =>
    simp only [advance] at hstep
    split at hstep
    case isTrue hpos => exact stepOk_goto hstep .read ⟨rfl, hpos⟩ hlock
    case isFalse hzero => exact stepOk_goto hstep .read ⟨hp, Nat.eq_zero_of_not_pos hzero⟩ hlock
  | initClaiming count leaseEnd =>
    obtain ⟨rfl, hpos⟩ := hp
    simp only [advance] at hstep
    split at hstep
    case h_1 => exact stepOk_failed hstep hlock
    case h_2 sh' ids hids =>
      obtain ⟨hmax, rfl, rfl⟩ := claimIds_some hids
      have hraise : Change late task bound sh { sh with nextId := sh.nextId + count } [] :=
        .raise (.inl hpos) (Nat.le_add_right _ _) hmax
      split at hstep
      case isTrue hle => exact stepOk_goto hstep hraise ⟨hle, hpos⟩ hlock
      case isFalse hgt =>
        exact stepOk_goto hstep hraise ⟨.inl ⟨rfl, hpos⟩, Nat.lt_of_not_le hgt⟩ hlock
  | initLoading count =>
    exact stepOk_load hstep (hlock rfl) h (fun value hloaded => ⟨hp.1, hp.2, hloaded⟩)
  | initStoring count value =>
    obtain ⟨hcount, hzero, hloaded⟩ := hp
    -- The read may be out of date, but nothing above it was returned or promised.
    refine stepOk_goto hstep (.store (hlock rfl) hzero hloaded.le_max) ?_ hlock
    exact ⟨hcount, hzero, ⟨hloaded.le_max, hloaded.lease_le, hloaded.bound_le, hloaded.current⟩,
      le_rfl⟩
  | initFreshClaiming count value =>
    obtain ⟨hcount, hzero, hloaded, hnext⟩ := hp
    simp only [advance] at hstep
    split at hstep
    case h_1 => exact stepOk_failed hstep hlock
    case h_2 sh' ids hids =>
      obtain ⟨hmax, rfl, rfl⟩ := claimIds_some hids
      have hpast : value < sh.nextId + count := by omega
      refine stepOk_goto hstep (.raise (.inr (hlock rfl)) (Nat.le_add_right _ _) hmax) ?_ hlock
      exact ⟨.inr ⟨⟨hloaded.le_max, hloaded.lease_le, hloaded.bound_le, hloaded.current⟩,
        hpast.le⟩, hpast⟩
  | reserveWaiting n => exact stepOk_acquire hstep hp
  | reserveLoading n =>
    exact stepOk_load hstep (hlock rfl) h (fun value hloaded => ⟨hp, hloaded⟩)
  | reserveNext n value =>
    obtain ⟨hn, hloaded⟩ := hp
    have hmax := hloaded.le_max
    have hnext := h.next_le
    exact stepOk_goto hstep .read ⟨hloaded, by omega, by omega, by omega⟩ hlock
  | reserveRaising n value target =>
    obtain ⟨hloaded, hvalue, hn, hmax⟩ := hp
    have hnext := h.next_le
    refine stepOk_goto hstep (.raise (.inr (hlock rfl)) (le_max_left _ _) (max_le hnext hmax)) ?_
      hlock
    exact ⟨⟨hloaded.le_max, hloaded.lease_le, hloaded.bound_le, hloaded.current⟩,
      le_trans hvalue (le_max_right _ _), le_trans hn (le_max_right _ _)⟩
  | reserveLease n value => exact stepOk_goto hstep .read ⟨hp.1, hp.2.1, hp.2.2, rfl⟩ hlock
  | reserveCompare n value leaseEnd =>
    obtain ⟨hloaded, hv, hn, rfl⟩ := hp
    simp only [advance] at hstep
    split at hstep
    case isTrue =>
      rw [max_eq_right hloaded.lease_le] at hstep
      exact stepOk_goto hstep .read ⟨.inr ⟨hloaded, hv⟩, hn, hloaded⟩ hlock
    case isFalse hcovered =>
      refine stepOk_goto hstep .read ⟨fun hlate => ?_, hn⟩ hlock
      have hmark := hloaded.current hlate
      omega
  | refillWaiting => exact stepOk_acquire hstep hp
  | refillLocked => exact stepOk_goto hstep .read hp hlock
  | refillNext n =>
    simp only [advance] at hstep
    split at hstep
    case isTrue => exact stepOk_goto hstep .read trivial hlock
    case isFalse => exact stepOk_goto hstep .read ⟨.inl ⟨rfl, hp⟩, hp⟩ hlock
  | extending base after => exact stepOk_extending h hp (hlock rfl) hclaim hstep
  | putting target after =>
    obtain ⟨hlease, hpos, hmax, hbound, hnext, hafter⟩ := hp
    simp only [advance] at hstep
    split_ifs at hstep with hclear
    cases hstep
    refine ⟨.put (hlock rfl) hclear hlease hbound hmax, ?_, fun _ _ _ => hlock rfl,
      fun h => absurd h Bool.false_ne_true⟩
    rintro _ ⟨rfl⟩
    rw [floor_singleton, show max bound ((Event.persisted target).bound late) = bound from
      Nat.max_zero bound]
    refine ⟨⟨(watermark_of_stored hmax rfl).symm, hclear⟩, hlease, hpos, hnext, ?_⟩
    cases after with
    | allocated => exact hafter
    | reserved => exact hafter
    | refilled => trivial
  | applied target after =>
    obtain ⟨heffect, hlease, hpos, hnext, hafter⟩ := hp
    refine stepOk_goto hstep (.publish (hlock rfl) heffect hlease hnext) ?_ hlock
    cases after with
    | allocated ids => exact ⟨hafter, hpos⟩
    | reserved n => exact ⟨fun _ => hafter.1.trans heffect.1.le, hafter.2⟩
    | refilled => trivial
  | covered after =>
    cases after with
    | allocated ids =>
      exact stepOk_goto hstep (endTask_change hlock) hp nofun
    | reserved n =>
      cases hstep
      exact ⟨.confirm (hlock rfl) hp.1 hp.2, fun _ h => absurd h (by simp),
        fun _ h => absurd h (by simp), fun h => absurd h Bool.false_ne_true⟩
    | refilled => exact stepOk_failed hstep hlock
  | lowWater ids => exact stepOk_goto hstep .read hp nofun
  | lowWaterNext ids n =>
    simp only [advance] at hstep
    split at hstep
    case isTrue =>
      cases hstep
      exact stepOk_returned sh.refillLifecycle false hp (hclaim ids rfl)
    case isFalse => exact stepOk_goto hstep .read hp nofun
  | startRefill ids =>
    simp only [advance] at hstep
    split at hstep
    case isTrue =>
      cases hstep
      exact stepOk_returned .inFlight true hp (hclaim ids rfl)
    case isFalse =>
      cases hstep
      exact stepOk_returned sh.refillLifecycle false hp (hclaim ids rfl)

/-- A step keeps the IDs its task has claimed, or claims the next ones. -/
theorem advance_claim (hstep : advance cfg task sh phase = some move)
    (hnext : move.phase = some next) (hids : next.claim = some ids) :
    phase.claim = some ids ∧ move.shared.nextId = sh.nextId ∨
      phase.claim = none ∧ ids = ⟨sh.nextId, move.shared.nextId⟩ := by
  cases phase with
  | extending _ after | putting _ after | applied _ after | covered after =>
    cases after <;> simp only [advance] at hstep <;>
      grind [goto, Phase.claim, Shared.endTask]
  | _ =>
    simp only [advance, acquire, load, Shared.claimIds] at hstep
    grind [goto, failed, Phase.claim]

/-- The IDs a step returns are those its task has claimed; it returns nothing else. -/
theorem advance_returned {t : Nat} (hstep : advance cfg task sh phase = some move)
    (hmem : .returned t ids ∈ move.events) :
    t = task ∧ phase.claim = some ids ∧ move.phase = none ∧
      move.events = [.returned task ids] := by
  cases phase with
  | extending _ after | putting _ after | applied _ after | covered after =>
    cases after <;> simp only [advance] at hstep <;> grind [goto]
  | _ =>
    simp only [advance, acquire, load, Shared.claimIds] at hstep
    grind [goto, failed, Phase.claim]

/-- Without a published lease only the holder of the lock has claimed IDs. -/
theorem claim_owner (hp : PhaseOk late sh bound phase) (hids : phase.claim = some ids) :
    0 < sh.leaseEnd ∨ phase.holdsLock = true := by
  cases phase with
  | extending _ after | putting _ after | applied _ after | covered after => exact .inr rfl
  | claimed | coverWaiting | coverLocked => exact .inl hp
  | coverNext => exact .inl hp.1
  | lowWater | lowWaterNext | startRefill => exact .inl hp.2
  | _ => cases hids

end Advance

/-! ## §5. The invariant of a state. -/

/-- The invariant of one task. -/
structure TaskOk (late : Bool) (sh : Shared) (bound task : Nat) (phase : Phase) : Prop where
  knows : PhaseOk late sh bound phase
  lock : phase.holdsLock = true → sh.extendLock = some task
  claim : ∀ ids, phase.claim = some ids → ids.stop ≤ sh.nextId

theorem TaskOk.stable {bound bound' task : Nat}
    (h : TaskOk late sh bound task phase) (hr : Rely late task sh sh' bound bound') :
    TaskOk late sh' bound' task phase := by
  refine ⟨h.knows.stable h.lock hr, fun hheld => (hr.lock (h.lock hheld)).1, ?_⟩
  intro ids hids
  have hnext : sh.nextId ≤ sh'.nextId := by
    rcases claim_owner h.knows hids with hpos | hheld
    · exact hr.next_le hpos
    · exact (hr.lock (h.lock hheld)).2.2
  exact le_trans (h.claim ids hids) hnext

/-- Two tasks never hold the lock at once. -/
theorem TaskOk.free_of_other
    (h : TaskOk late sh bound task phase) (hne : other ≠ task) (hlock : sh.extendLock = some other) :
    phase.holdsLock = false := by
  cases hheld : phase.holdsLock with
  | false => rfl
  | true =>
    have hmine := h.lock hheld
    rw [hlock] at hmine
    exact absurd (Option.some.inj hmine) hne

/-- The invariant of a state with the history that led to it. -/
structure Inv (late : Bool) (history : List Event) (s : State) : Prop where
  shared : SharedOk late s.shared (floor late history)
  tasks : ∀ task phase, s.tasks task = some phase →
    TaskOk late s.shared (floor late history) task phase
  fresh : ∀ task, s.started ≤ task → s.tasks task = none

theorem update_eq_some {tasks : Nat → Option Phase} {changed : Option Phase} :
    Function.update tasks task changed other = some phase ↔
      other = task ∧ changed = some phase ∨ other ≠ task ∧ tasks other = some phase := by
  by_cases heq : other = task <;> simp [heq]

/-- The tasks after a step: the one that moved, the refill it spawned, and the others. -/
theorem apply_tasks {s : State} {move : Move}
    (h : (s.apply task move).tasks other = some phase) :
    other = task ∧ move.phase = some phase ∨
      other = s.started ∧ move.spawnsRefill = true ∧ phase = .refillWaiting ∨
      other ≠ task ∧ s.tasks other = some phase := by
  unfold State.apply at h
  cases hspawn : move.spawnsRefill <;>
    simp only [hspawn, Bool.false_eq_true, if_true, if_false, Function.update_apply] at h <;>
    grind

@[simp] theorem apply_shared (s : State) (task : Nat) (move : Move) :
    (s.apply task move).shared = move.shared := by
  unfold State.apply
  split <;> rfl

theorem apply_fresh {s : State} {move : Move}
    (hfresh : ∀ t, s.started ≤ t → s.tasks t = none) (htask : s.tasks task = some phase) :
    ∀ t, (s.apply task move).started ≤ t → (s.apply task move).tasks t = none := by
  intro t ht
  have hlt : task < s.started := by
    by_contra hge
    simp [hfresh task (by omega)] at htask
  unfold State.apply at ht ⊢
  split at ht
  case isTrue hspawn =>
    have ht' : s.started + 1 ≤ t := ht
    simp only [hspawn, if_true]
    rw [Function.update_of_ne (by omega), Function.update_of_ne (by omega)]
    exact hfresh t (by omega)
  case isFalse hspawn =>
    have ht' : s.started ≤ t := ht
    simp only [hspawn, Bool.false_eq_true, if_false]
    rw [Function.update_of_ne (by omega)]
    exact hfresh t ht'

section Steps

variable {cfg : Config} {history : List Event} {s s' : State} {events : List Event}

theorem step_run (h : step cfg s (.run task) = some (s', events)) :
    ∃ phase move, s.tasks task = some phase ∧ advance cfg task s.shared phase = some move ∧
      s' = s.apply task move ∧ events = move.events := by
  obtain ⟨phase, hphase, h⟩ := Option.bind_eq_some_iff.mp h
  obtain ⟨move, hmove, h⟩ := Option.bind_eq_some_iff.mp h
  cases h
  exact ⟨phase, move, hphase, hmove, rfl, rfl⟩

/-- The invariant after a change that every remaining task can rely on. -/
theorem Inv.environment (h : Inv late history s)
    (hshared : SharedOk late s'.shared (floor late (history ++ events)))
    (htasks : ∀ task phase, s'.tasks task = some phase → s.tasks task = some phase ∧
      Rely late task s.shared s'.shared (floor late history) (floor late (history ++ events)))
    (hfresh : ∀ task, s'.started ≤ task → s'.tasks task = none) : Inv late (history ++ events) s' := by
  refine ⟨hshared, ?_, hfresh⟩
  intro task phase htask
  obtain ⟨hold, hr⟩ := htasks task phase htask
  exact (h.tasks task phase hold).stable hr

theorem inv_run (h : Inv late history s)
    (hstep : step cfg s (.run task) = some (s', events)) : Inv late (history ++ events) s' := by
  obtain ⟨phase, move, hphase, hmove, rfl, rfl⟩ := step_run hstep
  have htask := h.tasks task phase hphase
  have hok := advance_spec h.shared htask.knows htask.lock htask.claim hmove
  refine ⟨?_, ?_, apply_fresh h.fresh hphase⟩
  · rw [apply_shared, floor_append]
    exact hok.change.sharedOk h.shared
  · intro other next hnext
    rw [apply_shared, floor_append]
    rcases apply_tasks hnext with ⟨rfl, hmine⟩ | ⟨rfl, hspawn, rfl⟩ | ⟨hne, hother⟩
    · refine ⟨hok.phase next hmine, hok.lock next hmine, fun ids hids => ?_⟩
      rcases advance_claim hmove hmine hids with ⟨hkeep, hsame⟩ | ⟨-, rfl⟩
      · exact le_trans (htask.claim ids hkeep) hsame.ge
      · exact le_rfl
    · exact ⟨hok.spawn hspawn, nofun, nofun⟩
    · exact (h.tasks other next hother).stable (hok.change.rely hne)

/-- The phases a call starts in. -/
theorem entry_cases {call : Call} (h : call.entry = some phase) :
    (∃ count, 0 < count ∧ phase = .entered count) ∨
      ∃ next, next ≤ U64_MAX ∧ phase = .reserveWaiting next := by
  cases call with
  | allocate =>
    cases h
    exact .inl ⟨1, Nat.one_pos, rfl⟩
  | allocateBatch count =>
    simp only [Call.entry] at h
    split at h <;> cases h
    next hcount =>
      exact .inl ⟨_, Nat.pos_of_ne_zero fun hzero => hcount (UInt64.toNat_inj.mp hzero), rfl⟩
  | reserveAtLeast n =>
    cases h
    exact .inr ⟨_, toNat_le_max n, rfl⟩

theorem inv_call {call : Call} (h : Inv late history s)
    (hstep : step cfg s (.call call) = some (s', events)) : Inv late (history ++ events) s' := by
  have hsame : ∀ evs : List Event, floor late evs = 0 → floor late (history ++ evs) = floor late history := by
    intro evs hzero
    rw [floor_append, hzero, Nat.max_zero]
  simp only [step] at hstep
  split at hstep
  case h_1 phase hentry =>
    cases hstep
    have hfloor : floor late (history ++ [.called s.started]) = floor late history := hsame _ rfl
    refine ⟨by rw [hfloor]; exact h.shared, ?_, ?_⟩
    · intro task next hnext
      rw [hfloor]
      dsimp only at hnext ⊢
      rcases update_eq_some.mp hnext with ⟨-, hnext⟩ | ⟨-, hnext⟩
      · cases hnext
        obtain ⟨count, hcount, rfl⟩ | ⟨n, hn, rfl⟩ := entry_cases hentry
        · exact ⟨hcount, nofun, nofun⟩
        · exact ⟨hn, nofun, nofun⟩
      · exact h.tasks task next hnext
    · intro task hle
      dsimp only at hle ⊢
      rw [Function.update_of_ne (by omega)]
      exact h.fresh task (by omega)
  case h_2 =>
    cases hstep
    have hfloor : floor late (history ++ [.called s.started, .returned s.started ⟨0, 0⟩]) =
        floor late history := hsame _ rfl
    refine ⟨by rw [hfloor]; exact h.shared, by rw [hfloor]; exact h.tasks, ?_⟩
    intro task hle
    have hle' : s.started + 1 ≤ task := hle
    exact h.fresh task (by omega)

/-- Only a task waiting for its write leaves one behind. -/
theorem mem_leaves {stays : Bool} {write : Nat} (h : write ∈ phase.leaves stays) :
    ∃ after, phase = .putting write after := by
  cases phase with
  | putting target after =>
    simp only [Phase.leaves] at h
    split at h
    · rw [mem_singleton] at h
      exact ⟨after, by rw [h]⟩
    · cases h
  | _ => cases h

theorem leaves_of_free (stays : Bool) (h : phase.holdsLock = false) :
    phase.leaves stays = [] := by
  cases phase with
  | putting => cases h
  | _ => rfl

/-- The marks after more writes were left submitted. -/
theorem mem_marks_append {writes : List Nat} {mark : Nat} {ended : Shared}
    (h : mark ∈ Shared.marks late { ended with abandoned := ended.abandoned ++ writes }) :
    mark ∈ ended.marks late ∨ mark ∈ writes := by
  cases late with
  | true => exact mem_append.mp h
  | false => exact .inl h

theorem inv_abandon {stays : Bool} (h : Inv late history s)
    (hstep : step cfg s (.abandon task stays) = some (s', events)) : Inv late (history ++ events) s' := by
  obtain ⟨phase, hphase, hstep⟩ := Option.bind_eq_some_iff.mp hstep
  cases hstep
  have htask := h.tasks task phase hphase
  rw [append_nil]
  have hleft : ∀ write ∈ phase.leaves stays, write ≤ U64_MAX ∧ s.shared.leaseEnd ≤ write ∧
      floor late history ≤ write := by
    intro write hmem
    obtain ⟨after, rfl⟩ := mem_leaves hmem
    obtain ⟨hlease, -, hmax, hbound, -⟩ := htask.knows
    exact ⟨hmax, hlease, hbound⟩
  rw [← append_nil history]
  refine h.environment ?_ ?_ ?_
  · rw [append_nil]
    refine h.shared.remark rfl rfl ?_
    intro mark hmem
    rcases mem_marks_append hmem with hold | hnew
    · exact .inl hold
    · exact .inr (hleft mark hnew)
  · intro other next hnext
    obtain ⟨-, hnone⟩ | ⟨hne, hnext⟩ := update_eq_some.mp hnext
    · cases hnone
    refine ⟨hnext, ?_⟩
    -- When another task holds the lock, the abandoned one does not, so it leaves no write.
    have hfree : s.shared.extendLock = some other → phase.holdsLock = false :=
      fun hlock => htask.free_of_other hne hlock
    refine ⟨le_rfl, fun _ => le_rfl, fun hlock => ⟨?_, rfl, le_rfl⟩, fun _ _ => rfl,
      fun hlock hclear => ?_, fun _ => by simp⟩
    · simp only [Shared.endTask, hfree hlock, Bool.false_eq_true, if_false]
      exact hlock
    · simp only [Shared.endTask, hclear, leaves_of_free stays (hfree hlock), append_nil]
  · intro other hle
    dsimp only at hle ⊢
    rw [Function.update_apply, h.fresh other hle, ite_self]

/-- A settled write was one of the marks, unless no write can take effect late. -/
theorem inv_settle {takesEffect : Bool} (h : Inv late history s)
    (heffect : late = false → takesEffect = false)
    (hstep : step cfg s (.settle takesEffect) = some (s', events)) :
    Inv late (history ++ events) s' := by
  simp only [step] at hstep
  split at hstep
  case h_1 => cases hstep
  case h_2 write rest hwrites =>
    have hne : s.shared.abandoned ≠ [] := by rw [hwrites]; exact cons_ne_nil _ _
    split at hstep
    case isTrue htrue =>
      cases hstep
      obtain rfl : late = true := by
        cases late with
        | true => rfl
        | false => exact absurd (heffect rfl) (by simp [htrue])
      have hmem : ∀ mark ∈ write :: rest, mark ∈ s.shared.marks true := by
        intro mark hmark
        rw [Shared.marks, hwrites]
        exact mem_cons_of_mem _ hmark
      have hmax : write ≤ U64_MAX := h.shared.marks_le write (hmem write mem_cons_self)
      have hfloor : floor true (history ++ [.persisted write]) = floor true history := by
        rw [floor_append]
        simp [floor, Event.bound]
      refine h.environment ?_ (fun task phase htask => ⟨htask, ?_⟩) h.fresh
      · rw [hfloor]
        refine h.shared.remark rfl rfl (fun mark hmark => .inl (hmem mark ?_))
        rwa [Shared.marks, watermark_of_stored hmax rfl] at hmark
      · rw [hfloor]
        refine ⟨le_rfl, fun _ => le_rfl, fun hlock => ⟨hlock, rfl, le_rfl⟩, fun _ hor => ?_,
          fun _ hclear => absurd hclear hne, fun _ => by simp⟩
        rcases hor with hlate | hclear
        · cases hlate
        · exact absurd hclear hne
    case isFalse =>
      cases hstep
      refine h.environment ?_ (fun task phase htask => ⟨htask, ?_⟩) h.fresh
      · rw [append_nil]
        refine h.shared.remark rfl rfl (fun mark hmark => .inl ?_)
        rw [Shared.marks, hwrites]
        cases late with
        | true => exact cons_subset_cons _ (subset_cons_self _ _) hmark
        | false => exact hmark
      · rw [append_nil]
        exact ⟨le_rfl, fun _ => le_rfl, fun hlock => ⟨hlock, rfl, le_rfl⟩, fun _ _ => rfl,
          fun _ hclear => absurd hclear hne, fun _ => by simp⟩

/-- Stored bytes never read above the ID space. -/
theorem watermark_le_max (sh : Shared) : sh.watermark ≤ U64_MAX := by
  unfold Shared.watermark
  split
  case h_2 => exact Nat.zero_le _
  case h_1 value hload =>
    unfold loadPersistedWatermark at hload
    split at hload
    case h_1 =>
      cases hload
      exact Nat.zero_le _
    case h_2 bytes _ =>
      unfold decode at hload
      split_ifs at hload with hlen
      cases hload
      have hlt := ofBe_lt bytes
      rw [not_not.mp hlen] at hlt
      exact Nat.le_sub_one_of_lt hlt

/-- An allocator just built over a store that honours the history. -/
theorem sharedOk_opened (sh : Shared) (h : bound ≤ sh.watermark) :
    SharedOk late (.opened sh.stored) bound := by
  have hmark : ∀ mark ∈ (Shared.opened sh.stored).marks late, mark = sh.watermark := by
    rw [marks_of_clear rfl]
    exact fun mark hmem => mem_singleton.mp hmem
  refine ⟨Nat.zero_le _, ?_, fun _ _ => Nat.zero_le _, ?_, nofun⟩
  · intro mark hmem
    rw [hmark mark hmem]
    exact watermark_le_max sh
  · intro mark hmem
    rwa [hmark mark hmem]

/-- No write takes effect after the attempt that submitted it ended. -/
def OnTime : Action → Prop
  | .settle takesEffect => takesEffect = false
  | _ => True

/-- **Every action keeps the invariant.** -/
theorem inv_step {action : Action} (h : Inv late history s)
    (honTime : late = false → OnTime action) (hstep : step cfg s action = some (s', events)) : Inv late (history ++ events) s' := by
  cases action with
  | call call => exact inv_call h hstep
  | run task => exact inv_run h hstep
  | abandon task stays => exact inv_abandon h hstep
  | settle takesEffect => exact inv_settle h honTime hstep
  | shutdown =>
    cases hstep
    have hchange : Change late s.started (floor late history) s.shared
        { s.shared with refillLifecycle := s.shared.refillLifecycle.shutdown } [] := .lifecycle
    refine h.environment ?_ (fun task phase htask => ⟨htask, ?_⟩) h.fresh
    · rw [floor_append]
      exact hchange.sharedOk h.shared
    · rw [floor_append]
      refine hchange.rely ?_
      rintro rfl
      simp [h.fresh _ le_rfl] at htask
  | restart =>
    cases hstep
    rw [append_nil]
    exact ⟨sharedOk_opened _ h.shared.bound_le_watermark, nofun, fun _ _ => rfl⟩

/-- The invariant of an allocator over any store. -/
theorem inv_opened (stored : Option Bytes) : Inv late [] (.opened stored) :=
  ⟨sharedOk_opened (.opened stored) (Nat.zero_le _), nofun, fun _ _ => rfl⟩

end Steps

end HelixDb.IdAllocator
