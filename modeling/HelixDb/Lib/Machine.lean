/-
  HelixDb.Lib.Machine

  **EVENT-EMITTING STATE MACHINES**: a partial step function on states, whose
  steps also emit events, and the runs it has.

  A scheduler, a crash or a network is an action like any other, so one run is
  one interleaving.

    • `Run.invariant` — what holds at the start and is kept by every step holds
      of the history and the state of every run;
    • `Run.weaken` — a run of guarded steps is a run of the weaker guard;
    • `run_of_exec` — an evaluated action list is a run;
    • `Run.issued_increasing` — values issued above a rising floor never repeat;
    • `eachEvent_concat` — a property of every event and its past grows by one
      event at a time.
-/
import Mathlib

namespace HelixDb.Lib

/-- A machine with states `σ`, actions `α` and emitted events `ε`. -/
structure Machine (σ α ε : Type) where
  /-- The state after an action and the events it emits; `none` when the action is not enabled. -/
  step : σ → α → Option (σ × List ε)

namespace Machine

variable {σ α ε : Type}

/-- The runs from `start` whose every step satisfies `guard` in the state before it: the events
    emitted so far and the state reached. -/
inductive Run (m : Machine σ α ε) (guard : σ → α → Prop) (start : σ) : List ε → σ → Prop where
  | start : Run m guard start [] start
  | next {history : List ε} {s s' : σ} {a : α} {events : List ε} :
      Run m guard start history s → guard s a → m.step s a = some (s', events) →
      Run m guard start (history ++ events) s'

/-- The guard every step satisfies. -/
def always (_ : σ) (_ : α) : Prop := True

variable {m : Machine σ α ε} {guard : σ → α → Prop} {start : σ}

/-- **Invariant rule.**  A property of history and state that holds at the start and is kept by
    every guarded step holds at every point of every run. -/
theorem Run.invariant (Inv : List ε → σ → Prop) (hstart : Inv [] start)
    (hstep : ∀ {history s a s' events}, Inv history s → guard s a →
      m.step s a = some (s', events) → Inv (history ++ events) s')
    {history : List ε} {s : σ} (h : Run m guard start history s) : Inv history s := by
  induction h with
  | start => exact hstart
  | next _ hguard hs ih => exact hstep ih hguard hs

/-- Guards only remove runs. -/
theorem Run.weaken {guard' : σ → α → Prop} (hguard : ∀ s a, guard s a → guard' s a)
    {history : List ε} {s : σ} (h : Run m guard start history s) :
    Run m guard' start history s := by
  induction h with
  | start => exact .start
  | next _ hg hs ih => exact .next ih (hguard _ _ hg) hs

/-- Runs an action list, collecting the events; `none` when a step is not enabled or its guard
    fails. -/
def exec (m : Machine σ α ε) (check : σ → α → Bool) : σ → List α → Option (σ × List ε)
  | s, [] => some (s, [])
  | s, a :: rest =>
    if check s a then do
      let (s', events) ← m.step s a
      let (final, later) ← m.exec check s' rest
      return (final, events ++ later)
    else none

theorem Run.append_exec {check : σ → α → Bool} (hcheck : ∀ s a, check s a = true → guard s a)
    {actions : List α} : ∀ {history : List ε} {s final : σ} {events : List ε},
      Run m guard start history s → m.exec check s actions = some (final, events) →
      Run m guard start (history ++ events) final := by
  induction actions with
  | nil =>
    intro history s final events hrun hexec
    cases hexec
    simpa using hrun
  | cons a rest ih =>
    intro history s final events hrun hexec
    simp only [exec] at hexec
    split_ifs at hexec with hc
    obtain ⟨⟨s', first⟩, hstep, hexec⟩ := Option.bind_eq_some_iff.mp hexec
    obtain ⟨⟨last, later⟩, hrest, hexec⟩ := Option.bind_eq_some_iff.mp hexec
    cases hexec
    have hlater := ih (.next hrun (hcheck s a hc) hstep) hrest
    simpa using hlater

/-- **Evaluation is a run.** -/
theorem run_of_exec {check : σ → α → Bool} (hcheck : ∀ s a, check s a = true → guard s a)
    {actions : List α} {final : σ} {events : List ε}
    (h : m.exec check start actions = some (final, events)) : Run m guard start events final := by
  have hrun := Run.append_exec hcheck (Run.start : Run m guard start [] start) h
  simpa using hrun

/-- **Rising floors.**  If a step issues values at or above the floor it found, in increasing
    order and all below the floor it leaves, a run issues increasing values.  A state that can
    issue nothing has the floor `⊤`. -/
theorem Run.issued_increasing {β : Type} [LinearOrder β] (issued : ε → Option β)
    (floor : σ → WithTop β)
    (hstep : ∀ {s a s' events}, m.step s a = some (s', events) → floor s ≤ floor s' ∧
      (events.filterMap issued).Pairwise (· < ·) ∧
      ∀ v ∈ events.filterMap issued, floor s ≤ v ∧ (v : WithTop β) < floor s')
    {history : List ε} {s : σ} (h : Run m guard start history s) :
    (history.filterMap issued).Pairwise (· < ·) ∧
      ∀ v ∈ history.filterMap issued, (v : WithTop β) < floor s := by
  refine h.invariant (fun history s => (history.filterMap issued).Pairwise (· < ·) ∧
    ∀ v ∈ history.filterMap issued, (v : WithTop β) < floor s) ⟨.nil, by simp⟩ ?_
  intro history s a s' events hinv _ hs
  obtain ⟨hsorted, hbelow⟩ := hinv
  obtain ⟨hrise, hnew, hbetween⟩ := hstep hs
  rw [List.filterMap_append]
  constructor
  · refine List.pairwise_append.mpr ⟨hsorted, hnew, ?_⟩
    intro old hold new hmem
    -- What was issued lies below the floor at which the step issues.
    exact WithTop.coe_lt_coe.mp ((hbelow old hold).trans_le (hbetween new hmem).1)
  · intro v hv
    rcases List.mem_append.mp hv with hold | hmem
    · exact (hbelow v hold).trans_le hrise
    · exact (hbetween v hmem).2

end Machine

/-! ## Properties of every event of a history. -/

/-- Every event of the history satisfies `P` relative to the events before it. -/
def EachEvent {ε : Type} (P : List ε → ε → Prop) (history : List ε) : Prop :=
  ∀ older event newer, history = older ++ event :: newer → P older event

section EachEvent

variable {ε : Type} {P : List ε → ε → Prop} {history : List ε}

theorem eachEvent_nil : EachEvent P [] := by
  intro older event newer h
  exact absurd h (by simp)

theorem eachEvent_concat {event : ε} (h : EachEvent P history) (hevent : P history event) :
    EachEvent P (history ++ [event]) := by
  intro older e newer heq
  rcases List.eq_nil_or_concat newer with rfl | ⟨front, last, rfl⟩
  · obtain ⟨rfl, hlast⟩ := List.append_inj' heq rfl
    cases hlast
    exact hevent
  · rw [List.concat_eq_append, ← List.cons_append, ← List.append_assoc] at heq
    obtain ⟨hfront, -⟩ := List.append_inj' heq rfl
    exact h older e front hfront

end EachEvent

end HelixDb.Lib
