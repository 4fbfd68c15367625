/-
  HelixDb.IdAllocator.Watermark

  **WHEN THE PERSISTED WATERMARK NEVER DECREASES.**

  A refill and an allocation extend from the in-memory lease, a reservation
  from the stored watermark.  After an abandoned attempt whose write took
  effect, the stored watermark is ahead of the lease.  With a refill threshold
  of at least one, extending from the lease still reaches it, because both are
  whole chunks above the lease and the counter is at the stored watermark.
  With threshold zero a reservation that starts exactly at the counter adds one
  chunk more, and the next refill writes a smaller watermark.

  A write that takes effect after its attempt ended can pass a later read: the
  next extension starts from a watermark that is no longer the stored one.
  Careful steps exclude both.

    • `rises_step` — careful steps keep the invariant and never lower
      the stored watermark;
    • `id_allocator_contract` — the contract over every run;
    • `persisted_watermark_can_decrease` — the runs that lower it.
-/
import HelixDb.IdAllocator.Returned

namespace HelixDb.IdAllocator

open HelixDb.Lib HelixDb.Encoding List

/-! ## §1. Careful steps and the invariant. -/

/-- A write of the watermark is at least the watermark persisted before. -/
def PersistsUp (initial : Nat) (older : List Event) : Event → Prop
  | .persisted watermark => lastPersisted initial older ≤ watermark
  | _ => True

/-- The task is between the effect of its write and the publication of its lease. -/
def Phase.isApplied : Phase → Bool
  | .applied _ _ => true
  | _ => false

/-- The step condition: no write takes effect after its attempt ended and, unless the refill
    threshold is positive, no attempt ends between the effect of its write and its publication. -/
def Careful (cfg : Config) (s : State) (action : Action) : Prop :=
  OnTime action ∧ (0 < cfg.refillThreshold.toNat ∨ ∀ task stays phase,
    action = .abandon task stays → s.tasks task = some phase → phase.isApplied = false)

/-- The watermark `mark` is one an extension of the published lease reaches.  Without headroom only
    the lease itself is. -/
def Reached (cfg : Config) (sh : Shared) (mark : Nat) : Prop :=
  if cfg.refillThreshold.toNat = 0 then mark ≤ sh.leaseEnd
  else mark ≤ cfg.target sh.leaseEnd sh.nextId ∧ OnChunk cfg.leaseSize.toNat sh.leaseEnd mark

/-- What a writing phase adds: its write is ahead of the store, and the lease can follow it. -/
def PhaseRises (cfg : Config) (sh : Shared) : Phase → Prop
  | .putting target _ => sh.watermark ≤ target ∧
      (0 < cfg.refillThreshold.toNat → 0 < sh.leaseEnd → Reached cfg sh target)
  | .applied target _ => 0 < cfg.refillThreshold.toNat → 0 < sh.leaseEnd → Reached cfg sh target
  | _ => True

/-- No task has a write in effect that it has not published. -/
def Settled (s : State) : Prop :=
  ∀ task phase, s.tasks task = some phase → phase.isApplied = false

/-- The invariant of careful runs. -/
structure Rising (cfg : Config) (s : State) : Prop where
  reached : 0 < s.shared.leaseEnd → (0 < cfg.refillThreshold.toNat ∨ Settled s) →
    Reached cfg s.shared s.shared.watermark
  tasks : ∀ task phase, s.tasks task = some phase → PhaseRises cfg s.shared phase

/-! ## §2. Reaching a watermark. -/

variable {base other target : Nat}

section Reach

variable {cfg : Config} {sh sh' : Shared} {mark : Nat}

theorem leaseSize_pos (cfg : Config) : 0 < cfg.leaseSize.toNat :=
  Nat.pos_of_ne_zero fun hzero => cfg.leaseSize_ne_zero (UInt64.toNat_inj.mp hzero)

/-- The counter only grows, so what the lease reaches stays reached. -/
theorem Reached.mono (h : Reached cfg sh mark) (hlease : sh'.leaseEnd = sh.leaseEnd)
    (hnext : sh.nextId ≤ sh'.nextId) : Reached cfg sh' mark := by
  unfold Reached at h ⊢
  rw [hlease]
  split at h
  case isTrue hzero =>
    rwa [if_pos hzero]
  case isFalse hpos =>
    rw [if_neg hpos]
    exact ⟨le_trans h.1 (extensionTarget_mono (leaseSize_pos cfg) hnext), h.2⟩

/-- A published lease reaches itself. -/
theorem reached_lease (cfg : Config) (sh : Shared) : Reached cfg sh sh.leaseEnd := by
  unfold Reached
  split
  · exact le_rfl
  · exact ⟨le_extensionTarget, .inr ⟨0, rfl⟩⟩

/-- The lease reaches the target of every extension, whichever base it starts from. -/
theorem reached_target {base bound : Nat} (hpos : 0 < cfg.refillThreshold.toNat)
    (hs : SharedOk false sh bound) (hbase : IsBase false sh bound base)
    (hmark : Reached cfg sh sh.watermark) : Reached cfg sh (cfg.target base sh.nextId) := by
  simp only [Reached, if_neg hpos.ne'] at hmark ⊢
  rcases hbase with ⟨rfl, -⟩ | ⟨hloaded, hnext⟩
  · exact ⟨le_rfl, OnChunk.extensionTarget (leaseSize_pos cfg) (.inr ⟨0, rfl⟩)⟩
  · obtain rfl := hloaded.current rfl
    obtain ⟨hreach, hchunk⟩ := hmark
    exact ⟨extensionTarget_of_chunk (leaseSize_pos cfg) hpos hloaded.lease_le hnext
      hs.next_le hchunk hreach, hchunk.extensionTarget (leaseSize_pos cfg)⟩

/-- An extension writes at or past the stored watermark. -/
theorem watermark_le_target {bound : Nat} (hbase : IsBase false sh bound base)
    (hmark : 0 < sh.leaseEnd → Reached cfg sh sh.watermark) :
    sh.watermark ≤ cfg.target base sh.nextId := by
  rcases hbase with ⟨rfl, hpos⟩ | ⟨hloaded, -⟩
  · have hreached := hmark hpos
    unfold Reached at hreached
    split at hreached
    · exact le_trans hreached le_extensionTarget
    · exact hreached.1
  · rw [← hloaded.current rfl]
    exact le_extensionTarget

end Reach

/-! ## §3. Steps of a task. -/

/-- The phases of `persist_lease_extension`. -/
def Phase.extends : Phase → Bool
  | .extending _ _ | .putting _ _ | .applied _ _ => true
  | _ => false

section Steps

variable {cfg : Config} {task : Nat} {sh sh' : Shared} {bound : Nat} {phase next : Phase}
  {move : Move} {history events : List Event} {s s' : State}

/-- Outside `persist_lease_extension` a step writes neither the store nor the lease, and it moves
    the counter down only before the first lease. -/
theorem advance_quiet (hp : PhaseOk false sh bound phase) (hquiet : phase.extends = false)
    (hstep : advance cfg task sh phase = some move) :
    move.shared.stored = sh.stored ∧ move.shared.leaseEnd = sh.leaseEnd ∧
      (0 < sh.leaseEnd → sh.nextId ≤ move.shared.nextId) ∧
      (∀ watermark, .persisted watermark ∉ move.events) ∧
      ∀ next, move.phase = some next → ∀ sh', PhaseRises cfg sh' next := by
  cases phase with
  | extending | putting | applied => cases hquiet
  | covered after =>
    cases after <;> simp only [advance] at hstep <;>
      grind [goto, Shared.endTask, PhaseRises]
  | initStoring count value =>
    simp only [advance] at hstep
    have hzero := hp.2.1
    grind [goto, PhaseRises]
  | _ =>
    simp only [advance, acquire, load, Shared.claimIds] at hstep
    grind [goto, failed, Shared.endTask, PhaseRises]

theorem PhaseRises.stable (h : PhaseRises cfg sh phase)
    (hheld : phase.holdsLock = true → sh'.watermark = sh.watermark ∧
      sh'.leaseEnd = sh.leaseEnd ∧ sh.nextId ≤ sh'.nextId) : PhaseRises cfg sh' phase := by
  cases phase with
  | putting target after =>
    obtain ⟨hmark, hlease, hnext⟩ := hheld rfl
    refine ⟨hmark.le.trans h.1, fun hpos hle => ?_⟩
    rw [hlease] at hle
    exact (h.2 hpos hle).mono hlease hnext
  | applied target after =>
    obtain ⟨-, hlease, hnext⟩ := hheld rfl
    intro hpos hle
    rw [hlease] at hle
    exact (h hpos hle).mono hlease hnext
  | _ => trivial

/-- While a task holds the lock before its write, no write is in effect unpublished. -/
theorem settled_of_holder (h : Inv false history s) (hphase : s.tasks task = some phase)
    (hlock : phase.holdsLock = true) (hnot : phase.isApplied = false) : Settled s := by
  intro other other' hother
  cases happlied : other'.isApplied with
  | false => rfl
  | true =>
    have hheld : other'.holdsLock = true := by
      cases other' with
      | applied => rfl
      | _ => cases happlied
    have hmine := (h.tasks task phase hphase).lock hlock
    rw [(h.tasks other other' hother).lock hheld] at hmine
    obtain rfl := Option.some.inj hmine
    rw [hphase] at hother
    cases hother
    simp [hnot] at happlied

/-- A step of one task keeps what the others need. -/
theorem rising_others (h : Inv false history s) (hr : Rising cfg s) (hphase : s.tasks task = some phase)
    (hmove : advance cfg task s.shared phase = some move)
    (hself : ∀ next, move.phase = some next → PhaseRises cfg move.shared next) :
    ∀ other next, (s.apply task move).tasks other = some next →
      PhaseRises cfg move.shared next := by
  have htask := h.tasks task phase hphase
  have hchange := (advance_spec h.shared htask.knows htask.lock htask.claim hmove).change
  intro other next hnext
  rcases apply_tasks hnext with ⟨-, hmine⟩ | ⟨-, -, rfl⟩ | ⟨hne, hother⟩
  · exact hself next hmine
  · trivial
  · refine (hr.tasks other next hother).stable (fun hheld => ?_)
    have hlock := (h.tasks other next hother).lock hheld
    have hrely := hchange.rely hne
    exact ⟨hrely.storage hlock (.inl rfl), (hrely.lock hlock).2⟩

/-- A step of one task leaves the phases of the others. -/
theorem apply_tasks_of_ne (hne : other ≠ task) (hlt : other < s.started) :
    (s.apply task move).tasks other = s.tasks other := by
  unfold State.apply
  dsimp only
  split
  · dsimp only
    rw [Function.update_of_ne hlt.ne, Function.update_of_ne hne]
  · dsimp only
    rw [Function.update_of_ne hne]

/-- A step from a phase without an applied write settles nothing. -/
theorem settled_before (h : Inv false history s) (hphase : s.tasks task = some phase)
    (hnot : phase.isApplied = false) (hsettled : Settled (s.apply task move)) : Settled s := by
  intro other next hother
  by_cases heq : other = task
  · rw [heq, hphase] at hother
    cases hother
    exact hnot
  · rw [← apply_tasks_of_ne heq (h.lt_started hother)] at hother
    exact hsettled other next hother

/-- What a step of a careful run keeps. -/
def Rises (cfg : Config) (s s' : State) (events : List Event) : Prop :=
  Rising cfg s' ∧ ∀ watermark, .persisted watermark ∈ events → s.shared.watermark ≤ watermark

section

variable (h : Inv false history s)
include h

theorem rises_quiet (hr : Rising cfg s)
    (hphase : s.tasks task = some phase) (hquiet : phase.extends = false)
    (hmove : advance cfg task s.shared phase = some move) :
    Rises cfg s (s.apply task move) move.events := by
  have htask := h.tasks task phase hphase
  obtain ⟨hstored, hlease, hnext, hnone, hself⟩ := advance_quiet htask.knows hquiet hmove
  have hnot : phase.isApplied = false := by
    cases phase with
    | applied => cases hquiet
    | _ => rfl
  refine ⟨⟨?_, ?_⟩, fun watermark hmem => absurd hmem (hnone watermark)⟩
  · rw [apply_shared, hlease, watermark_congr hstored]
    intro hpos hor
    have hbefore := hor.imp_right (settled_before h hphase hnot)
    exact (hr.reached hpos hbefore).mono hlease (hnext hpos)
  · rw [apply_shared]
    exact rising_others h hr hphase hmove (fun next hn => hself next hn _)

/-- Computing the target: the shared fields stay, and the write to come is ahead of the store. -/
theorem rises_extending {after : After} (hr : Rising cfg s)
    (hphase : s.tasks task = some (.extending base after))
    (hmove : advance cfg task s.shared (.extending base after) = some move) :
    Rises cfg s (s.apply task move) move.events := by
  have htask := h.tasks task _ hphase
  have hbase : IsBase false s.shared (floor false history) base := by
    cases after <;> exact htask.knows.1
  have hsettled : Settled s := settled_of_holder h hphase rfl rfl
  have hreached : 0 < s.shared.leaseEnd → Reached cfg s.shared s.shared.watermark :=
    fun hpos => hr.reached hpos (.inr hsettled)
  have hself : move.shared = s.shared ∧ move.events = [] ∧
      ∀ next, move.phase = some next → PhaseRises cfg s.shared next := by
    simp only [advance] at hmove
    split at hmove
    case isTrue =>
      cases hmove
      refine ⟨rfl, rfl, ?_⟩
      rintro _ ⟨rfl⟩
      trivial
    case isFalse =>
      cases hmove
      refine ⟨rfl, rfl, ?_⟩
      rintro _ ⟨rfl⟩
      exact ⟨watermark_le_target hbase hreached,
        fun hpos hlease => reached_target hpos h.shared hbase (hreached hlease)⟩
  obtain ⟨hshared, hevents, hnext⟩ := hself
  refine ⟨⟨?_, ?_⟩, ?_⟩
  · rw [apply_shared, hshared]
    exact fun hpos _ => hreached hpos
  · rw [apply_shared]
    refine rising_others h hr hphase hmove ?_
    rwa [hshared]
  · rw [hevents]
    exact fun _ hmem => absurd hmem not_mem_nil

/-- The write takes effect, at or past the one before. -/
theorem rises_putting {after : After} (hr : Rising cfg s)
    (hphase : s.tasks task = some (.putting target after))
    (hmove : advance cfg task s.shared (.putting target after) = some move) :
    Rises cfg s (s.apply task move) move.events := by
  obtain ⟨-, -, hmax, -⟩ := (h.tasks task _ hphase).knows
  obtain ⟨hahead, hreach⟩ := hr.tasks task _ hphase
  have hcopy := hmove
  simp only [advance] at hmove
  split_ifs at hmove with hclear
  cases hmove
  refine ⟨⟨?_, ?_⟩, ?_⟩
  · rw [apply_shared, watermark_of_stored hmax rfl]
    rintro hlease (hpos | hsettled)
    · exact (hreach hpos hlease).mono rfl le_rfl
    · -- The task itself is now between effect and publication.
      have happlied := hsettled task (.applied target after) (Function.update_self _ _ _)
      cases happlied
  · rw [apply_shared]
    refine rising_others h hr hphase hcopy ?_
    rintro _ ⟨rfl⟩ hpos hlease
    exact (hreach hpos hlease).mono rfl le_rfl
  · intro watermark hmem
    cases mem_singleton.mp hmem
    exact hahead

/-- Publishing the write: the lease is the stored watermark. -/
theorem rises_applied {after : After} (hr : Rising cfg s)
    (hphase : s.tasks task = some (.applied target after))
    (hmove : advance cfg task s.shared (.applied target after) = some move) :
    Rises cfg s (s.apply task move) move.events := by
  obtain ⟨⟨hmark, -⟩, -⟩ := (h.tasks task _ hphase).knows
  have hcopy := hmove
  cases hmove
  refine ⟨⟨?_, ?_⟩, fun _ hmem => absurd hmem not_mem_nil⟩
  · rw [apply_shared, show Shared.watermark { s.shared with leaseEnd := target } = target from
      hmark.symm]
    exact fun _ _ => reached_lease cfg { s.shared with leaseEnd := target }
  · rw [apply_shared]
    refine rising_others h hr hphase hcopy ?_
    rintro _ ⟨rfl⟩
    trivial

theorem rises_run (hr : Rising cfg s)
    (hstep : step cfg s (.run task) = some (s', events)) : Rises cfg s s' events := by
  obtain ⟨phase, move, hphase, hmove, rfl, rfl⟩ := step_run hstep
  cases phase with
  | extending base after => exact rises_extending h hr hphase hmove
  | putting target after => exact rises_putting h hr hphase hmove
  | applied target after => exact rises_applied h hr hphase hmove
  | _ => exact rises_quiet h hr hphase rfl hmove

end

/-! ## §4. Every careful step. -/

/-- The invariant after a change that keeps the lease, the counter and the store and leaves every
    remaining task its phase. -/
theorem Rising.environment (hr : Rising cfg s)
    (hlease : s'.shared.leaseEnd = s.shared.leaseEnd) (hnext : s'.shared.nextId = s.shared.nextId)
    (hmark : s'.shared.watermark = s.shared.watermark)
    (hsettled : 0 < cfg.refillThreshold.toNat ∨ (Settled s' → Settled s))
    (htasks : ∀ task phase, s'.tasks task = some phase →
      s.tasks task = some phase ∨ ∀ sh, PhaseRises cfg sh phase) : Rising cfg s' := by
  refine ⟨?_, ?_⟩
  · intro hpos hor
    rw [hlease] at hpos
    have hbefore : 0 < cfg.refillThreshold.toNat ∨ Settled s := by
      rcases hor with hthreshold | hafter
      · exact .inl hthreshold
      · exact hsettled.imp_right (fun himp => himp hafter)
    rw [hmark]
    exact (hr.reached hpos hbefore).mono hlease hnext.ge
  · intro task phase hphase
    rcases htasks task phase hphase with hold | hnew
    · exact (hr.tasks task phase hold).stable fun _ => ⟨hmark, hlease, hnext.ge⟩
    · exact hnew _

theorem rises_abandon {stays : Bool} (hr : Rising cfg s)
    (hcareful : Careful cfg s (.abandon task stays))
    (hstep : step cfg s (.abandon task stays) = some (s', events)) : Rises cfg s s' events := by
  obtain ⟨phase, hphase, hstep⟩ := Option.bind_eq_some_iff.mp hstep
  cases hstep
  refine ⟨hr.environment rfl rfl rfl ?_ ?_, fun _ hmem => absurd hmem not_mem_nil⟩
  · refine hcareful.2.imp_right (fun hkeeps hafter other next hother => ?_)
    by_cases heq : other = task
    · rw [heq] at hother
      exact hkeeps task stays next rfl hother
    · refine hafter other next ?_
      dsimp only
      rwa [Function.update_of_ne heq]
  · intro other next hother
    rcases update_eq_some.mp hother with ⟨-, hnone⟩ | ⟨-, hold⟩
    · cases hnone
    · exact .inl hold

/-- A settled write is lost, so the store stays. -/
theorem rises_settle {takesEffect : Bool} (hr : Rising cfg s)
    (hcareful : Careful cfg s (.settle takesEffect))
    (hstep : step cfg s (.settle takesEffect) = some (s', events)) : Rises cfg s s' events := by
  obtain rfl : takesEffect = false := hcareful.1
  simp only [step] at hstep
  split at hstep
  case h_1 => cases hstep
  case h_2 write rest hwrites =>
    cases hstep
    exact ⟨hr.environment rfl rfl rfl (.inr fun hafter => hafter) fun _ _ => .inl,
      fun _ hmem => absurd hmem not_mem_nil⟩

/-- A freshly built allocator has no lease. -/
theorem rising_opened (stored : Option Bytes) (started : Nat) :
    Rising cfg { State.opened stored with started } :=
  ⟨nofun, nofun⟩

/-- **Careful steps never lower the watermark**, and keep the invariant. -/
theorem rises_step {action : Action} (h : Inv false history s) (hr : Rising cfg s)
    (hcareful : Careful cfg s action) (hstep : step cfg s action = some (s', events)) :
    Rises cfg s s' events := by
  cases action with
  | call call =>
    simp only [step] at hstep
    split at hstep
    case h_1 phase hentry =>
      cases hstep
      refine ⟨hr.environment rfl rfl rfl (.inr ?_) ?_, ?_⟩
      · intro hafter task next htask
        refine hafter task next ?_
        dsimp only
        rwa [Function.update_of_ne (h.lt_started htask).ne]
      · intro task next htask
        rcases update_eq_some.mp htask with ⟨-, hnew⟩ | ⟨-, hold⟩
        · cases hnew
          obtain ⟨count, -, rfl⟩ | ⟨n, -, rfl⟩ := entry_cases hentry <;>
            exact .inr fun _ => trivial
        · exact .inl hold
      · intro watermark hmem
        cases mem_singleton.mp hmem
    case h_2 =>
      cases hstep
      refine ⟨⟨hr.reached, hr.tasks⟩, ?_⟩
      intro watermark hmem
      simp at hmem
  | run task => exact rises_run h hr hstep
  | abandon task stays => exact rises_abandon hr hcareful hstep
  | settle takesEffect => exact rises_settle hr hcareful hstep
  | shutdown =>
    cases hstep
    exact ⟨hr.environment rfl rfl rfl (.inr fun hafter => hafter) fun _ _ => .inl,
      fun _ hmem => absurd hmem not_mem_nil⟩
  | restart =>
    cases hstep
    exact ⟨rising_opened s.shared.stored s.started,
      fun _ hmem => absurd hmem not_mem_nil⟩

end Steps

/-! ## §5. The contract over runs. -/

section Runs

variable {cfg : Config} {stored : Option Bytes} {history : List Event} {s : State}

/-- Every run keeps the invariant and its account. -/
theorem run_accounted (late : Bool) {guard : State → Action → Prop}
    (hguard : ∀ s action, guard s action → late = false → OnTime action)
    (hrun : (machine cfg).Run guard (.opened stored) history s) :
    Inv late history s ∧ Accounted late (State.opened stored).shared.watermark history s := by
  refine hrun.invariant (fun history s => Inv late history s ∧ Accounted late _ history s)
    ⟨inv_opened stored, accounted_opened stored⟩ ?_
  intro history s action s' events hinv hstepOk hstep
  have honTime := hguard s action hstepOk
  exact ⟨inv_step hinv.1 honTime hstep, accounted_step hinv.2 hinv.1 honTime hstep⟩

/-- The events of one careful step grow a history of rising writes. -/
theorem persistsUp_append {initial : Nat} {events : List Event} {s' : State}
    (h : EachEvent (PersistsUp initial) history)
    (hmark : lastPersisted initial history = s.shared.watermark) (hemits : Emits s s' events)
    (hrises : ∀ watermark, .persisted watermark ∈ events → s.shared.watermark ≤ watermark) :
    EachEvent (PersistsUp initial) (history ++ events) := by
  cases hemits with
  | silent => simpa using h
  | called | reserved | returned => exact eachEvent_concat h trivial
  | emptyBatch =>
    have hcalled : EachEvent (PersistsUp initial) (history ++ [.called s.started]) :=
      eachEvent_concat h trivial
    have hreturned : EachEvent (PersistsUp initial)
        (history ++ [.called s.started] ++ [.returned s.started ⟨0, 0⟩]) :=
      eachEvent_concat hcalled trivial
    simpa using hreturned
  | @persisted watermark =>
    refine eachEvent_concat h ?_
    show lastPersisted initial history ≤ watermark
    rw [hmark]
    exact hrises watermark mem_cons_self

theorem run_persistsUp (hrun : (machine cfg).Run (Careful cfg) (.opened stored) history s) :
    EachEvent (PersistsUp (State.opened stored).shared.watermark) history := by
  have hall : Inv false history s ∧ Accounted false (State.opened stored).shared.watermark history s ∧
      Rising cfg s ∧ EachEvent (PersistsUp (State.opened stored).shared.watermark) history := by
    refine hrun.invariant (fun history s => Inv false history s ∧ Accounted false _ history s ∧
      Rising cfg s ∧ EachEvent (PersistsUp _) history)
      ⟨inv_opened stored, accounted_opened stored, rising_opened stored 0, eachEvent_nil⟩ ?_
    rintro history s action s' events ⟨hinv, haccount, hrising, hups⟩ hcareful hstep
    have honTime : false = false → OnTime action := fun _ => hcareful.1
    obtain ⟨hrising', hrises⟩ := rises_step hinv hrising hcareful hstep
    exact ⟨inv_step hinv honTime hstep, accounted_step haccount hinv honTime hstep, hrising',
      persistsUp_append hups haccount.mark (emits_step hinv honTime hstep) hrises⟩
  exact hall.2.2.2

end Runs

/-- **The ID allocator contract.**  In every run no ID is returned twice and every returned ID is
    below the watermark persisted by then.  In every run in which no write takes effect after its
    attempt ended, no call returns an ID below a reservation confirmed before it began.  In every
    run of careful steps the persisted watermark never decreases either. -/
theorem id_allocator_contract (cfg : Config) (stored : Option Bytes) (history : List Event)
    (s : State) :
    ((machine cfg).Run Machine.always (.opened stored) history s →
      EachEvent ReturnsFresh history ∧
        EachEvent (ReturnsBelow (State.opened stored).shared.watermark) history) ∧
    ((machine cfg).Run (fun _ => OnTime) (.opened stored) history s →
      EachEvent ReturnsReserved history) ∧
    ((machine cfg).Run (Careful cfg) (.opened stored) history s →
      EachEvent ReturnsFresh history ∧
        EachEvent (ReturnsBelow (State.opened stored).shared.watermark) history ∧
        EachEvent ReturnsReserved history ∧
        EachEvent (PersistsUp (State.opened stored).shared.watermark) history) := by
  refine ⟨?_, ?_, ?_⟩
  · intro hrun
    have haccount := (run_accounted true (fun _ _ _ => nofun) hrun).2
    exact ⟨haccount.fresh, haccount.below⟩
  · intro hrun
    exact (run_accounted false (fun _ _ honTime _ => honTime) hrun).2.reserved rfl
  · intro hrun
    have haccount := (run_accounted false (fun _ _ hcareful _ => hcareful.1) hrun).2
    exact ⟨haccount.fresh, haccount.below, haccount.reserved rfl, run_persistsUp hrun⟩

/-- A lease of ten IDs and no refill headroom. -/
def noHeadroom : Config := ⟨10, 0, by decide⟩

/-- A batch takes the first lease; its refill waits while two reservations are cancelled after
    their writes took effect; then the refill extends from the old lease. -/
def cancelledReservations : List Action :=
  .call (.allocateBatch 10) :: List.replicate 13 (.run 0) ++
    .call (.reserveAtLeast 11) :: List.replicate 8 (.run 2) ++ [.abandon 2 false] ++
    .call (.reserveAtLeast 0) :: List.replicate 8 (.run 3) ++ [.abandon 3 false] ++
    List.replicate 5 (.run 1)

/-- The history of that run: the watermark goes from 30 back to 20. -/
def loweringHistory : List Event :=
  [.called 0, .persisted 10, .returned 0 ⟨0, 10⟩, .called 2, .persisted 20, .called 3,
    .persisted 30, .persisted 20]

/-- A lease of ten IDs, refilled when five are left. -/
def fiveHeadroom : Config := ⟨10, 5, by decide⟩

/-- A reservation is cancelled with its write pending; an allocation reads the store before that
    write takes effect, and writes after it. -/
def lateReservation : List Action :=
  .call (.reserveAtLeast 1000) :: List.replicate 7 (.run 0) ++ [.abandon 0 true] ++
    .call .allocate :: List.replicate 7 (.run 1) ++ [.settle true, .run 1]

/-- The history of that run: the watermark goes from 1010 back to 10. -/
def lateHistory : List Event := [.called 0, .called 1, .persisted 1010, .persisted 10]

/-- **The watermark can decrease**: without headroom when a write takes effect unpublished, and
    with headroom when a write takes effect after its attempt ended. -/
theorem persisted_watermark_can_decrease :
    (∃ s, (machine noHeadroom).Run Machine.always (.opened none) loweringHistory s ∧
      ¬ EachEvent (PersistsUp (State.opened none).shared.watermark) loweringHistory) ∧
    ∃ s, (machine fiveHeadroom).Run Machine.always (.opened none) lateHistory s ∧
      ¬ EachEvent (PersistsUp (State.opened none).shared.watermark) lateHistory := by
  constructor
  · have hexec : ((machine noHeadroom).exec (fun _ _ => true) (.opened none)
        cancelledReservations).map Prod.snd = some loweringHistory := by decide
    obtain ⟨⟨s, history⟩, hsome, rfl⟩ := Option.map_eq_some_iff.mp hexec
    refine ⟨s, Machine.run_of_exec (fun _ _ _ => trivial) hsome, ?_⟩
    intro hups
    have hlast : lastPersisted 0 [.called 0, .persisted 10, .returned 0 ⟨0, 10⟩, .called 2,
        .persisted 20, .called 3, .persisted 30] ≤ 20 := hups _ (.persisted 20) [] rfl
    exact absurd hlast (by decide)
  · have hexec : ((machine fiveHeadroom).exec (fun _ _ => true) (.opened none)
        lateReservation).map Prod.snd = some lateHistory := by decide
    obtain ⟨⟨s, history⟩, hsome, rfl⟩ := Option.map_eq_some_iff.mp hexec
    refine ⟨s, Machine.run_of_exec (fun _ _ _ => trivial) hsome, ?_⟩
    intro hups
    have hlast : lastPersisted 0 [.called 0, .called 1, .persisted 1010] ≤ 10 :=
      hups _ (.persisted 10) [] rfl
    exact absurd hlast (by decide)

/-- A lease of ten IDs, refilled when one is left. -/
def oneHeadroom : Config := ⟨10, 1, by decide⟩

/-- A confirmed reservation of 7, then a call that allocates. -/
def reservedHistory : List Event :=
  [.called 0, .persisted 10, .reserved 7, .called 1, .returned 1 ⟨7, 8⟩]

instance : DecidablePred OnTime
  | .settle takesEffect => inferInstanceAs (Decidable (takesEffect = false))
  | .call _ | .run _ | .abandon _ _ | .shutdown | .restart => .isTrue trivial

theorem id_allocator_contract_of_reservation :
    ∃ s, (machine oneHeadroom).Run (Careful oneHeadroom) (.opened none) reservedHistory s ∧
      EachEvent ReturnsFresh reservedHistory ∧
      EachEvent (ReturnsBelow (State.opened none).shared.watermark) reservedHistory ∧
      EachEvent ReturnsReserved reservedHistory ∧
      EachEvent (PersistsUp (State.opened none).shared.watermark) reservedHistory := by
  have hexec : ((machine oneHeadroom).exec (fun _ action => decide (OnTime action)) (.opened none)
      (.call (.reserveAtLeast 7) :: List.replicate 10 (.run 0) ++
        .call .allocate :: List.replicate 5 (.run 1))).map Prod.snd = some reservedHistory := by
    decide
  obtain ⟨⟨s, history⟩, hsome, rfl⟩ := Option.map_eq_some_iff.mp hexec
  have hcareful : ∀ (s : State) (action : Action), decide (OnTime action) = true →
      Careful oneHeadroom s action :=
    fun _ _ hcheck => ⟨of_decide_eq_true hcheck, .inl (by decide)⟩
  have hrun := Machine.run_of_exec hcareful hsome
  exact ⟨s, hrun, (id_allocator_contract oneHeadroom none _ s).2.2 hrun⟩

end HelixDb.IdAllocator
