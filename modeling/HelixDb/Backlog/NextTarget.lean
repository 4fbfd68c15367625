/-
  HelixDb.Backlog.NextTarget

  **WHICH GENERATION PUBLICATION ATTEMPTS NEXT**: one round over the outstanding
  targets, from the remembered one on, past those in flight or backed off.

  The list of targets is read again at every call, so the remembered target may
  have left it.  Only the order of the targets carries over.

    • `before_of_ready` — no available target is passed over;
    • `nextTarget_schedule` — no target comes round twice past an available one,
      and a delay is the earliest deadline.
-/
import HelixDb.Backlog.State

namespace HelixDb.Backlog

open HelixDb.Lib HelixDb.Lifecycle List

/-! ## §1. What a call reads. -/

/-- Targets in the derived order: by logical index, then by generation. -/
instance : LinearOrder QueueTarget :=
  LinearOrder.lift' (fun target => toLex (target.logicalIndex, target.generation)) (by
    intro ⟨_, _, _⟩ ⟨_, _, _⟩ h
    obtain ⟨hindex, rfl⟩ := Prod.mk.inj (toLex.injective h)
    obtain ⟨rfl, rfl⟩ := LogicalIndex.mk.inj hindex
    rfl)

/-- `outstanding_admissions`: every generation with work, and its latest admission. -/
def BacklogState.outstandingAdmissions (state : BacklogState) : List (QueueTarget × Nat) :=
  (state.indexes.entries.flatMap fun index => index.2.generations.entries.map fun work =>
    (⟨index.1.scope, index.1.indexId, work.1⟩, work.2.latest)).insertionSort
      fun a b => toLex a ≤ toLex b

/-- When a target is eligible for its next attempt. -/
inductive Eligibility where
  | now
  | after (instant : Instant)
  | newWork (admitted : Option Nat) (deadline : Instant)

/-- `waits_until`. -/
def Eligibility.waitsUntil (latest : Nat) : Eligibility → Option Instant
  | now => none
  | after instant => some instant
  | newWork admitted deadline => if admitted = some latest then some deadline else none

/-- What `next_target` answers. -/
inductive NextTarget where
  | ready (target : QueueTarget)
  | delayed (deadline : Instant)
  | idle
deriving DecidableEq

/-- What one call of `next_target` is given; of the schedules it reads the eligibility. -/
structure Call where
  ledger : BacklogState
  schedules : FinMap QueueTarget Eligibility
  inFlight : Finset QueueTarget
  now : Instant

namespace Call

/-- The deadline a target is backed off to. -/
def backoff (call : Call) (entry : QueueTarget × Nat) : Option Instant :=
  ((call.schedules.lookup entry.1).bind (·.waitsUntil entry.2)).filter (call.now < ·)

/-- The loop of `next_target`. -/
def scan (call : Call) : Option Instant → List (QueueTarget × Nat) → NextTarget
  | earliest, [] => earliest.elim .idle .delayed
  | earliest, entry :: rest =>
    if entry.1 ∈ call.inFlight then call.scan earliest rest
    else match call.backoff entry with
      | some notBefore => call.scan (some (earliest.elim notBefore (min · notBefore))) rest
      | none => .ready entry.1

/-- The targets in the order they are tried: offset `k` is position `start + k`, modulo the
length. -/
def round (call : Call) (cursor : Option QueueTarget) : List (QueueTarget × Nat) :=
  let targets := call.ledger.outstandingAdmissions
  let start := (cursor.bind fun previous => targets.findIdx? (previous < ·.1)).getD 0
  targets.rotate start

/-- `next_target`: the outcome, and the cursor, which moves to a target that is ready.  Without
targets the round is empty, which is `idle`. -/
def nextTarget (call : Call) (cursor : Option QueueTarget) : NextTarget × Option QueueTarget :=
  match call.scan none (call.round cursor) with
  | .ready target => (.ready target, some target)
  | waiting => (waiting, cursor)

/-- A target that is outstanding, not in flight and not backed off. -/
def Available (call : Call) (target : QueueTarget) : Prop :=
  target ∉ call.inFlight ∧ ∃ latest, (target, latest) ∈ call.ledger.outstandingAdmissions ∧
    call.backoff (target, latest) = none

end Call

/-- The cursor after `n` calls. -/
def cursorAfter (cursor : Option QueueTarget) (calls : Nat → Call) : Nat → Option QueueTarget
  | 0 => cursor
  | n + 1 => ((calls n).nextTarget (cursorAfter cursor calls n)).2

/-- The outcome of the call numbered `n`. -/
def outcome (cursor : Option QueueTarget) (calls : Nat → Call) (n : Nat) : NextTarget :=
  ((calls n).nextTarget (cursorAfter cursor calls n)).1

/-! ## §2. One call. -/

variable {other previous picked target : QueueTarget}

section OneCall

variable {call : Call} {entries : List (QueueTarget × Nat)}

/-- An entry the scan may pick. -/
def Call.free (call : Call) (entry : QueueTarget × Nat) : Bool :=
  entry.1 ∉ call.inFlight ∧ call.backoff entry = none

/-- The deadline an entry adds to the scan. -/
def Call.deadline (call : Call) (entry : QueueTarget × Nat) : Option Instant :=
  if entry.1 ∈ call.inFlight then none else call.backoff entry

/-- A scan picks the first free entry; without one it waits for the least deadline. -/
theorem scan_eq (earliest : Option Instant) : call.scan earliest entries =
    match entries.find? call.free with
    | some entry => .ready entry.1
    | none => (earliest.toList ++ entries.filterMap call.deadline).min?.elim .idle .delayed := by
  fun_induction Call.scan call earliest entries with
  | case1 earliest => cases earliest <;> rfl
  | case2 earliest entry rest hflight ih =>
    simp [Call.free, Call.deadline, hflight, ih]
  | case3 earliest entry rest hflight notBefore hback ih =>
    have hdeadline : call.deadline entry = some notBefore := (if_neg hflight).trans hback
    rw [ih, find?_cons_of_neg (by simp [Call.free, hback]), filterMap_cons_some hdeadline]
    cases earliest <;> rfl
  | case4 earliest entry rest hflight hback => simp [Call.free, hflight, hback]

theorem scan_delayed {deadline : Instant} (h : call.scan none entries = .delayed deadline) :
    (∀ entry ∈ entries, entry.1 ∉ call.inFlight →
      ∃ notBefore, call.backoff entry = some notBefore ∧ deadline ≤ notBefore) ∧
    ∃ entry ∈ entries, entry.1 ∉ call.inFlight ∧ call.backoff entry = some deadline := by
  rw [scan_eq] at h
  split at h
  case h_1 => cases h
  case h_2 hnone =>
    have hmin : (entries.filterMap call.deadline).min? = some deadline := by
      cases hleast : (entries.filterMap call.deadline).min? <;> simp_all
    obtain ⟨hmem, hle⟩ := min?_eq_some_iff.mp hmin
    simp only [mem_filterMap, Call.deadline, Option.ite_none_left_eq_some] at hmem hle
    refine ⟨fun entry hentry hflight => ?_, hmem⟩
    cases hback : call.backoff entry with
    | none => simpa [Call.free, hflight, hback] using find?_eq_none.mp hnone entry hentry
    | some notBefore => exact ⟨notBefore, rfl, hle notBefore ⟨entry, hentry, hflight, hback⟩⟩

/-- `a` comes before `b` in the round that starts after `cursor`. -/
def Before (cursor a b : QueueTarget) : Prop :=
  a ≤ b ∧ (cursor < a ∨ b ≤ cursor) ∨ cursor < a ∧ b ≤ cursor

theorem pairwise_rotate (hsorted : entries.Pairwise (·.1 ≤ ·.1)) :
    (entries.rotate ((entries.findIdx? (previous < ·.1)).getD 0)).Pairwise
      (Before previous ·.1 ·.1) := by
  cases hstart : entries.findIdx? (previous < ·.1) with
  | none =>
    have hall : ∀ entry ∈ entries, entry.1 ≤ previous := by
      simpa using findIdx?_eq_none_iff.mp hstart
    rw [Option.getD_none, rotate_zero]
    exact hsorted.imp_of_mem fun _ hb hle => .inl ⟨hle, .inr (hall _ hb)⟩
  | some start =>
    obtain ⟨hlt, hfound, hskipped⟩ := findIdx?_eq_some_iff_getElem.mp hstart
    have hafter : ∀ entry ∈ entries.drop start, previous < entry.1 := by
      have hdrop := hsorted.drop (i := start)
      rw [drop_eq_getElem_cons hlt] at hdrop ⊢
      have hfirst : previous < entries[start].1 := by simpa using hfound
      exact forall_mem_cons.mpr ⟨hfirst, fun entry hentry =>
        hfirst.trans_le ((pairwise_cons.mp hdrop).1 entry hentry)⟩
    have hupTo : ∀ entry ∈ entries.take start, entry.1 ≤ previous := by
      intro entry hentry
      obtain ⟨k, hk, rfl⟩ := mem_take_iff_getElem.mp hentry
      simpa using hskipped k (by omega)
    rw [Option.getD_some, rotate_eq_drop_append_take hlt.le, pairwise_append]
    exact ⟨hsorted.drop.imp_of_mem fun ha _ hle => .inl ⟨hle, .inl (hafter _ ha)⟩,
      hsorted.take.imp_of_mem fun _ hb hle => .inl ⟨hle, .inr (hupTo _ hb)⟩,
      fun _ ha _ hb => .inr ⟨hafter _ ha, hupTo _ hb⟩⟩

theorem sorted_outstandingAdmissions (state : BacklogState) :
    state.outstandingAdmissions.Pairwise (·.1 ≤ ·.1) :=
  (pairwise_insertionSort _ _).imp fun h => (Prod.Lex.toLex_le_toLex.mp h).elim le_of_lt (·.1.le)

/-- No available target lies between the cursor and the one picked. -/
theorem before_of_ready (hother : call.Available other)
    (hready : call.scan none (call.round (some previous)) = .ready picked) (hne : picked ≠ other) :
    Before previous picked other := by
  obtain ⟨hflight, latest, hmem, hback⟩ := hother
  have hround : (call.round (some previous)).Pairwise (Before previous ·.1 ·.1) :=
    pairwise_rotate (sorted_outstandingAdmissions call.ledger)
  have hfree : call.free (other, latest) = true := decide_eq_true ⟨hflight, hback⟩
  replace hmem : (other, latest) ∈ call.round (some previous) := mem_rotate.mpr hmem
  obtain ⟨entry, hfind⟩ := Option.isSome_iff_exists.mp (find?_isSome.mpr ⟨_, hmem, hfree⟩)
  rw [scan_eq, hfind] at hready
  cases hready
  obtain ⟨-, front, back, hentries, hfront⟩ := find?_eq_some_iff_append.mp hfind
  rw [hentries] at hround hmem
  -- the other target is not skipped, so it stands after the one picked
  rcases mem_append.mp hmem with hskip | hmem
  · simpa [hfree] using hfront _ hskip
  · rcases mem_cons.mp hmem with rfl | hmem
    · exact absurd rfl hne
    · exact (pairwise_cons.mp (pairwise_append.mp hround).2.1).1 _ hmem

theorem nextTarget_fst (cursor : Option QueueTarget) :
    (call.nextTarget cursor).1 = call.scan none (call.round cursor) := by
  unfold Call.nextTarget
  split <;> simp_all

end OneCall

/-! ## §3. Runs of calls. -/

/-- Where the cursor stays on its way from `target` while `other` is available and not picked. -/
def Within (target other cursor : QueueTarget) : Prop :=
  target ≤ cursor ∧ cursor < other ∨ other < target ∧ (target ≤ cursor ∨ cursor < other)

theorem Within.next {target other cursor picked : QueueTarget} (h : Within target other cursor)
    (hpicked : Before cursor picked other) (hne : picked ≠ other) :
    picked ≠ target ∧ Within target other picked := by
  unfold Within Before at *
  grind

variable {cursor : Option QueueTarget} {calls : Nat → Call}

/-- While `other` is available and not selected, the cursor does not come round to `target`. -/
theorem within_cursorAfter {i j : Nat}
    (hfirst : outcome cursor calls i = .ready target) (hother : other ≠ target)
    (havailable : ∀ k, i < k → k ≤ j → (calls k).Available other)
    (hnever : ∀ k, i < k → k < j → outcome cursor calls k ≠ .ready other) (k : Nat)
    (hk : i + 1 ≤ k) : k ≤ j →
      ∃ previous, cursorAfter cursor calls k = some previous ∧ Within target other previous := by
  induction k, hk using Nat.le_induction with
  | base =>
    intro _
    refine ⟨target, ?_, ?_⟩
    · rw [cursorAfter, Call.nextTarget, (nextTarget_fst _).symm.trans hfirst]
    · unfold Within
      grind
  | succ k hk ih =>
    intro hj
    obtain ⟨previous, hprevious, hwithin⟩ := ih (by omega)
    rw [cursorAfter, Call.nextTarget]
    split
    case h_1 picked hready =>
      have hne : picked ≠ other := by
        rintro rfl
        exact hnever k hk hj ((nextTarget_fst _).trans hready)
      rw [hprevious] at hready
      have hbefore := before_of_ready (havailable k hk (by omega)) hready hne
      exact ⟨picked, rfl, (hwithin.next hbefore hne).2⟩
    case h_2 => exact ⟨previous, hprevious, hwithin⟩

/-- **The schedule of publication.**  Between two selections of one target, every other target
that is available at each call after the first, the second included, is selected.  A delay is
returned only when all that is outstanding and not in flight is backed off, and it is their
earliest deadline. -/
theorem nextTarget_schedule :
    (∀ (cursor : Option QueueTarget) (calls : Nat → Call) (i j : Nat) (target other : QueueTarget),
      i < j → outcome cursor calls i = .ready target → outcome cursor calls j = .ready target →
      other ≠ target → (∀ k, i < k → k ≤ j → (calls k).Available other) →
      ∃ k, i < k ∧ k < j ∧ outcome cursor calls k = .ready other) ∧
    ∀ (cursor : Option QueueTarget) (call : Call) (deadline : Instant),
      (call.nextTarget cursor).1 = .delayed deadline →
      (∀ entry ∈ call.ledger.outstandingAdmissions, entry.1 ∉ call.inFlight →
        ∃ notBefore, call.backoff entry = some notBefore ∧ deadline ≤ notBefore) ∧
      ∃ entry ∈ call.ledger.outstandingAdmissions,
        entry.1 ∉ call.inFlight ∧ call.backoff entry = some deadline := by
  constructor
  · intro cursor calls i j target other hij hi hj hother havailable
    by_contra hnone
    push Not at hnone
    obtain ⟨previous, hprevious, hwithin⟩ :=
      within_cursorAfter hi hother havailable hnone j hij le_rfl
    rw [outcome, nextTarget_fst, hprevious] at hj
    have hbefore := before_of_ready (havailable j hij le_rfl) hj hother.symm
    exact (hwithin.next hbefore hother.symm).1 rfl
  · intro cursor call deadline h
    rw [nextTarget_fst] at h
    simpa only [Call.round, mem_rotate] using scan_delayed h

/-- The target of a generation of the first index. -/
def generationTarget (id : IndexGenerationId) : QueueTarget := ⟨.legacyUnscoped, .initial _, id⟩

/-- A call with work for the generations 1, 2 and 3 of one index. -/
def threeGenerations (inFlight : Finset QueueTarget) : Call where
  ledger := { BacklogState.empty with
    indexes := AList.insert ⟨.legacyUnscoped, .initial _⟩ { IndexUsage.empty with
      generations := AList.insert (.initial _) ⟨1, 1⟩ (AList.insert ⟨2, by decide⟩ ⟨1, 2⟩
        (AList.insert ⟨3, by decide⟩ ⟨1, 3⟩ ∅)) } ∅ }
  schedules := ∅
  inFlight := inFlight
  now := 0

/-- Three generations in turn: the second is selected between two selections of the first.  With
the others in flight and the first backed off to 5, the delay is until 5. -/
theorem nextTarget_schedule_of_threeGenerations :
    (∃ k, 0 < k ∧ k < 3 ∧ outcome none (fun _ => threeGenerations ∅) k =
      .ready (generationTarget ⟨2, by decide⟩)) ∧
    let target := generationTarget (.initial _)
    let call : Call := { threeGenerations {generationTarget ⟨2, by decide⟩,
      generationTarget ⟨3, by decide⟩} with schedules := AList.insert target (.after 5) ∅ }
    (call.nextTarget none).1 = .delayed 5 ∧ ∃ entry ∈ call.ledger.outstandingAdmissions,
      entry.1 ∉ call.inFlight ∧ call.backoff entry = some 5 := by
  refine ⟨nextTarget_schedule.1 none _ 0 3 (generationTarget (.initial _)) _ (by decide)
    (by decide +kernel) (by decide +kernel) (by decide) fun k _ _ =>
      ⟨by decide, 2, by decide +kernel, by decide +kernel⟩, ?_⟩
  intro target call
  have hdelayed : (call.nextTarget none).1 = .delayed 5 := by decide +kernel
  exact ⟨hdelayed, (nextTarget_schedule.2 none call 5 hdelayed).2⟩

/-- At the second selection the other target must be available too: generation 3 is at the call
that picks generation 2 and is in flight when generation 1 comes round. -/
theorem skipped_of_inFlight_at_second : ¬ ∀ (cursor : Option QueueTarget) (calls : Nat → Call)
    (i j : Nat) (target other : QueueTarget), i < j →
    outcome cursor calls i = .ready target → outcome cursor calls j = .ready target →
    (∀ k, i < k → k < j → outcome cursor calls k ≠ .ready target) → other ≠ target →
    (∀ k, i < k → k < j → (calls k).Available other) →
    ∃ k, i < k ∧ k < j ∧ outcome cursor calls k = .ready other := by
  intro h
  let last := generationTarget ⟨3, by decide⟩
  let calls (k : Nat) := threeGenerations (if k = 2 then {last} else ∅)
  have honly {k : Nat} (hi : 0 < k) (hj : k < 2) : k = 1 := by omega
  obtain ⟨k, hi, hj, hk⟩ := h none calls 0 2 (generationTarget ⟨1, by decide⟩) last (by decide)
    (by decide +kernel) (by decide +kernel)
    (fun k hi hj => by
      obtain rfl := honly hi hj
      decide +kernel)
    (by decide)
    (fun k hi hj => by
      obtain rfl := honly hi hj
      exact ⟨by decide, 3, by decide +kernel, by decide +kernel⟩)
  obtain rfl := honly hi hj
  revert hk
  decide +kernel

end HelixDb.Backlog
