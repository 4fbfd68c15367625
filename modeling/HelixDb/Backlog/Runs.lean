/-
  HelixDb.Backlog.Runs

  **EVERY SEQUENCE OF LEDGER OPERATIONS KEEPS THE ACCOUNTS**, so no panic of the
  ledger is reachable.

    • `LedgerOp.apply_accounts` — one operation, any accounts-keeping state;
    • `ledger_accounts_of_members_fit` — every finite sequence from the empty
      ledger;
    • `ledger_reference_count_wraps` — the bound on a member's operations is
      needed.
-/
import HelixDb.Backlog.Accounts
import HelixDb.Backlog.Effects

namespace HelixDb.Backlog

open HelixDb.Lib HelixDb.Keys HelixDb.Lifecycle BacklogState List Option
open HelixDb.Queue.QueuedOperationId (one_clear)

/-! ## §1. Operations on retained charges. -/

variable {tracked : LogicalIndex → Prop} {s t : BacklogState}

section

variable (h : Accounts tracked s)
include h

theorem acknowledge_accounts (ids : List QueuedOperationId)
    (now : Instant) : ∃ t, s.acknowledge ids now = .ok t ∧ Accounts tracked t := by
  refine foldlM_total (fun _ => Accounts tracked) h ?_
  intro done id rest s _ hs
  obtain ⟨t, hrelease, ht, -⟩ := hs.release id
  rw [acknowledgeOne, hrelease]
  cases s.charges.lookup id with
  | none => exact ⟨t, rfl, ht⟩
  | some charge => exact ⟨_, rfl, accounts_countAcknowledgement ht id charge.state now⟩

theorem mark_accounts (ids : List QueuedOperationId) (returned : Instant) :
    ∃ t, s.markAcknowledgementUncertain ids returned = .ok t ∧ Accounts tracked t := by
  refine foldlM_total (fun _ => Accounts tracked) h ?_
  intro done id rest s' _ hs
  obtain ⟨t, htransition, ht, -⟩ := hs.transition id (uncertainAcknowledgement s.reconcileClock
    returned)
  rw [markOne, htransition]
  rcases s'.charges.lookup id with _ | ⟨_, _, _, _ | _ | ⟨_ | _, _⟩⟩
  case some.uncertain.enqueue => exact ⟨_, rfl, accounts_count ht _⟩
  all_goals exact ⟨t, rfl, ht⟩

/-- A returned commit readmits the charge it found reserved. -/
theorem settleReserved_accounts (id : QueuedOperationId)
    (settled : ChargeState) :
    ∃ t previous, s.transition id (settleReserved settled) = .ok (t, previous) ∧
      Accounts tracked t ∧
      (previous = some .reserved → ∃ u, t.readmit id = .ok u ∧ Accounts tracked u) := by
  obtain ⟨t, htransition, ht, hretained⟩ := h.transition id (settleReserved settled)
  refine ⟨t, _, htransition, ht, ?_⟩
  intro hprevious
  obtain ⟨charge, hcharge, -⟩ := map_eq_some_iff.mp hprevious
  have hsome := hretained id
  rw [hcharge] at hsome
  obtain ⟨moved, hmoved⟩ := isSome_iff_exists.mp hsome
  obtain ⟨u, hu, haccounts, -⟩ := ht.readmit hmoved
  exact ⟨u, hu, haccounts⟩

theorem resolveOne_accounts (outcome : ReservationOutcome)
    (now : Instant) (marked : Nat) (id : QueuedOperationId) :
    ∃ t, resolveOne outcome now marked s id = .ok t ∧ Accounts tracked t := by
  cases outcome with
  | committed =>
    obtain ⟨t, previous, htransition, ht, hreadmitted⟩ :=
      settleReserved_accounts (accounts_count h (.committed id)) id (.durable (.committed now))
    simp only [resolveOne, htransition]
    rcases previous with _ | (_ | _ | _)
    case some.reserved => exact hreadmitted rfl
    all_goals exact ⟨t, rfl, ht⟩
  | aborted =>
    obtain ⟨t, hrelease, ht, -⟩ := h.release id
    simp only [resolveOne, hrelease]
    exact ⟨t, rfl, ht⟩
  | uncertain =>
    obtain ⟨t, previous, htransition, ht, hreadmitted⟩ :=
      settleReserved_accounts h id (.uncertain .enqueue marked)
    simp only [resolveOne, htransition]
    rcases previous with _ | (_ | _ | _)
    case some.reserved => exact hreadmitted rfl
    all_goals exact ⟨_, rfl, accounts_count ht _⟩

theorem resolve_accounts (ids : List QueuedOperationId)
    (outcome : ReservationOutcome) (now : Instant) :
    ∃ t, (s.resolve ids outcome now).map Prod.fst = .ok t ∧ Accounts tracked t := by
  have htotal : ∃ t, ids.foldlM (resolveOne outcome now s.reconcileClock) s = .ok t ∧
      Accounts tracked t := by
    refine foldlM_total (fun _ => Accounts tracked) h ?_
    intro done id rest s' _ hs
    exact resolveOne_accounts hs outcome now s.reconcileClock id
  obtain ⟨t, hfold, ht⟩ := htotal
  refine ⟨t, ?_, ht⟩
  rw [resolve, hfold]
  rfl

end

/-! ## §2. Operations that enter charges. -/

/-- The ledger after `discover`. -/
def discovered (s : BacklogState) (a : OperationCharge) : BacklogState :=
  if (s.charges.lookup a.id).isSome then s
  else (s.inserted a (.durable .discovered)).count (.discovered a.id)

theorem discover_eq (s : BacklogState) (a : OperationCharge) :
    s.discover a = .ok (discovered s a) := by
  unfold discover discovered
  cases s.charges.lookup a.id <;> rfl

theorem Entered.discovered {a : OperationCharge} (h : Entered s t) :
    Entered s (discovered t a) := by
  unfold HelixDb.Backlog.discovered
  split
  case isTrue => exact h
  case isFalse hnew =>
    exact h.enter (not_isSome_iff_eq_none.mp hnew) rfl rfl rfl rfl

theorem discoverPresent_entered (s : BacklogState) (target : QueueTarget)
    (present : List StoredOperation) :
    ∃ t found, s.discoverPresent target present = .ok (t, found) ∧ Entered s t := by
  have htotal : ∃ acc, s.discoverPresent target present = .ok acc ∧ Entered s acc.1 := by
    refine foldlM_total (fun _ (acc : BacklogState × Finset QueuedOperationId) => Entered s acc.1)
      .refl ?_
    intro done operation rest acc _ hacc
    unfold presentOne
    cases acc.1.charges.lookup operation.1 with
    | none => exact ⟨_, by rw [discover_eq]; rfl, hacc.discovered⟩
    | some charge =>
      dsimp only
      split <;> exact ⟨_, rfl, hacc⟩
  obtain ⟨acc, hacc⟩ := htotal
  exact ⟨acc.1, acc.2, hacc⟩

/-- An admission enters the charges of a well-formed list. -/
theorem admitAll_entered {charges : List OperationCharge} (hwf : WellFormed s charges) :
    ∃ t, s.admitAll charges = .ok t ∧ Entered s t := by
  have htotal : ∃ t, s.admitAll charges = .ok t ∧ (Entered s t ∧ Admitted s charges t) := by
    refine foldlM_total (fun done t => Entered s t ∧ Admitted s done t) ⟨.refl, admitted_nil s⟩ ?_
    intro done a rest t hcharges hinv
    have hid := notMem_of_nodup hwf.distinct hcharges
    have hnew : t.charges.lookup a.id = none := by
      rw [hinv.2.others a.id hid]
      exact hwf.fresh a (by simp [hcharges])
    exact ⟨_, rfl, hinv.1.enter hnew rfl rfl rfl rfl, hinv.2.inserted hid⟩
  obtain ⟨t, hadmitAll, hentered, -⟩ := htotal
  exact ⟨t, hadmitAll, hentered⟩

theorem reserve_entered (s : BacklogState) (limits : BacklogLimits)
    (charges : List OperationCharge) (blocked : List BlockedBuild) :
    ∃ t result, s.reserve limits charges blocked = .ok (t, result) ∧ Entered s t := by
  unfold reserve
  cases hstage : s.stage charges with
  | error error => exact ⟨s, _, rfl, .refl⟩
  | ok staging =>
    obtain ⟨t, hadmitAll, hentered⟩ := admitAll_entered (stage_ok hstage).wellFormed
    dsimp only
    split
    · exact ⟨s, _, rfl, .refl⟩
    split
    · exact ⟨s, _, rfl, .refl⟩
    · rw [hadmitAll]
      exact ⟨t, _, rfl, hentered⟩

/-! ## §3. Reconciliation. -/

/-- An indexed uncertain charge is retained and uncertain, so its settlement is computed. -/
theorem settlement_ok (h : Accounts tracked s) {target : QueueTarget}
    {ids : Finset QueuedOperationId} (hids : s.uncertain.lookup target = some ids)
    (ticket : Nat) (found : Finset QueuedOperationId) {id : QueuedOperationId} (hid : id ∈ ids) :
    ∃ item, s.settlement ticket found id = .ok item := by
  have hindexed : id ∈ (s.uncertain.lookup target).getD ∅ := by
    rwa [hids]
  obtain ⟨charge, hcharge, -, hstate⟩ := (h.uncertain target id).mp hindexed
  unfold settlement
  rw [hcharge]
  dsimp only
  cases hcase : charge.state with
  | uncertain commit marked => exact ⟨_, rfl⟩
  | reserved | durable origin =>
    rw [hcase] at hstate
    cases hstate

/-- **Settling one retained charge.** -/
theorem settleOne_accounts {acc : BacklogState × Nat} (h : Accounts tracked acc.1)
    (now : Instant) {item : Settled} (hretained : (acc.1.charges.lookup item.1).isSome = true) :
    ∃ acc', settleOne now acc item = .ok acc' ∧ Accounts tracked acc'.1 ∧
      ∀ other, other ≠ item.1 →
        (acc'.1.charges.lookup other).isSome = (acc.1.charges.lookup other).isSome := by
  obtain ⟨id, commit, present⟩ := item
  have htransition := h.transition id
  obtain ⟨t, hrelease, ht, hothers⟩ := h.release id
  have hkept : ∀ other, other ≠ id →
      (t.charges.lookup other).isSome = (acc.1.charges.lookup other).isSome := by
    intro other hother
    rw [hothers, if_neg hother]
  obtain ⟨charge, hcharge⟩ := isSome_iff_exists.mp hretained
  rw [hcharge] at hrelease
  cases commit with
  | enqueue =>
    cases present with
    | true =>
      obtain ⟨u, hu, hutracked, hsame⟩ := htransition fun _ => .durable .discovered
      simp only [settleOne, hu]
      exact ⟨_, rfl, accounts_count hutracked (.discovered id), fun other _ => hsame other⟩
    | false =>
      simp only [settleOne, hrelease]
      exact ⟨_, rfl, ht, hkept⟩
  | acknowledgement origin returned =>
    cases present with
    | true =>
      obtain ⟨u, hu, hutracked, hsame⟩ := htransition fun _ => .durable origin
      simp only [settleOne, hu]
      exact ⟨_, rfl, hutracked, fun other _ => hsame other⟩
    | false =>
      simp only [settleOne, hrelease]
      refine ⟨_, rfl, accounts_countAcknowledgement ht id charge.state now, ?_⟩
      intro other hother
      rw [(countAcknowledgement_fields t id charge.state now).2.1]
      exact hkept other hother

/-- **Settling a list of distinct retained charges.** -/
theorem settle_accounts (h : Accounts tracked s) (now : Instant) {items : List Settled}
    (hdistinct : (items.map Prod.fst).Nodup)
    (hretained : ∀ item ∈ items, (s.charges.lookup item.1).isSome = true) :
    ∃ acc, items.foldlM (settleOne now) (s, 0) = .ok acc ∧ Accounts tracked acc.1 := by
  -- The charges not yet settled stay retained.
  have htotal : ∃ acc, items.foldlM (settleOne now) (s, 0) = .ok acc ∧
      (Accounts tracked acc.1 ∧ ∀ item ∈ items, item.1 ∉ items.map Prod.fst →
        (acc.1.charges.lookup item.1).isSome = true) := by
    refine foldlM_total (fun done (acc : BacklogState × Nat) => Accounts tracked acc.1 ∧
      ∀ item ∈ items, item.1 ∉ done.map Prod.fst →
        (acc.1.charges.lookup item.1).isSome = true) ⟨h, fun item hitem _ => hretained item hitem⟩ ?_
    intro done item rest acc hitems hinv
    have hfresh := notMem_of_nodup hdistinct hitems
    obtain ⟨acc', hstep, haccounts, hkept⟩ :=
      settleOne_accounts hinv.1 now (hinv.2 item (by simp [hitems]) hfresh)
    refine ⟨acc', hstep, haccounts, ?_⟩
    intro other hother hnot
    simp only [map_append, map_cons, map_nil, mem_append, mem_singleton,
      not_or] at hnot
    rw [hkept other.1 hnot.2]
    exact hinv.2 other hother hnot.1
  obtain ⟨acc, hacc, haccounts, -⟩ := htotal
  exact ⟨acc, hacc, haccounts⟩

/-- **`finish_reconciliation` keeps the accounts**, given the bounds at its peak. -/
theorem finishReconciliation_accounts (h : Accounts tracked s) (order : VisitOrder) (ticket : Nat)
    (target : QueueTarget) (present : List StoredOperation) (now : Instant)
    (hfits : ∀ t found, s.discoverPresent target present = .ok (t, found) →
      FitsAll tracked t.charges) :
    ∃ t released, s.finishReconciliation order ticket target present now = .ok (t, released) ∧
      Accounts tracked t := by
  obtain ⟨t, found, hdiscover, hentered⟩ := discoverPresent_entered s target present
  have ht := hentered.accounts h (hfits t found hdiscover)
  simp only [finishReconciliation, hdiscover, bind, Except.bind]
  cases hids : t.uncertain.lookup target with
  | none => exact ⟨t, 0, rfl, ht⟩
  | some ids =>
    have hvisited : ∀ id ∈ order.visit ids, ∃ item, t.settlement ticket found id = .ok item :=
      fun id hid => settlement_ok ht hids ticket found ((order.mem_visit ids id).mp hid)
    obtain ⟨items, hitems, hall⟩ := mapM_total hvisited
    have hsublist := settled_sublist (hall.imp fun id item hitem settled hsettled =>
      settlement_id (hsettled ▸ hitem))
    have hretained : ∀ item ∈ items.filterMap (fun item => item),
        (t.charges.lookup item.1).isSome = true := by
      intro item hitem
      have hid := (order.mem_visit ids item.1).mp
        (hsublist.subset (mem_map_of_mem hitem))
      have hindexed : item.1 ∈ (t.uncertain.lookup target).getD ∅ := by
        rwa [hids]
      obtain ⟨charge, hcharge, -⟩ := (ht.uncertain target item.1).mp hindexed
      rw [hcharge]
      rfl
    obtain ⟨acc, hacc, haccounts⟩ :=
      settle_accounts ht now ((order.nodup ids).sublist hsublist) hretained
    simp only [hitems, hacc]
    exact ⟨acc.1, acc.2, rfl, haccounts⟩

/-! ## §4. Sequences of operations. -/

/-- One call on the ledger or on a reservation of it. -/
inductive LedgerOp where
  | reserve (charges : List OperationCharge) (blocked : List BlockedBuild)
  /-- `committed`, `aborted` and `uncertain` of a reservation. -/
  | finish (reservation : Reservation) (outcome : ReservationOutcome) (now : Instant)
  | drop (reservation : Reservation) (now : Instant)
  | acknowledge (ids : List QueuedOperationId) (now : Instant)
  | markAcknowledgementUncertain (ids : List QueuedOperationId) (returned : Instant)
  | loadDurable (target : QueueTarget) (operations : List StoredOperation)
  | beginReconciliation
  | finishReconciliation (order : VisitOrder) (ticket : Nat) (target : QueueTarget)
      (present : List StoredOperation) (now : Instant)

namespace LedgerOp

/-- The ledger after a call; what the call returns to its caller is left out. -/
def apply (limits : BacklogLimits) (s : BacklogState) : LedgerOp → Ledger BacklogState
  | .reserve charges blocked => (s.reserve limits charges blocked).map Prod.fst
  | .finish reservation outcome now => (reservation.finish s outcome now).map Prod.fst
  | .drop reservation now => (reservation.drop s now).map Prod.fst
  | .acknowledge ids now => s.acknowledge ids now
  | .markAcknowledgementUncertain ids returned => s.markAcknowledgementUncertain ids returned
  | .loadDurable target operations => s.loadDurable target operations
  | .beginReconciliation => .ok s.beginReconciliation.1
  | .finishReconciliation order ticket target present now =>
    (s.finishReconciliation order ticket target present now).map Prod.fst

/-- The charges retained at the peak of a call: after everything it enters and before anything it
    releases. -/
def peak (limits : BacklogLimits) (s : BacklogState) : LedgerOp → Charges
  | .finishReconciliation _ _ target present _ =>
    match s.discoverPresent target present with
    | .ok (t, _) => t.charges
    | .error _ => s.charges
  | op =>
    match op.apply limits s with
    | .ok t => t.charges
    | .error _ => s.charges

/-- The ledger after a sequence of calls. -/
def run (limits : BacklogLimits) (s : BacklogState) (ops : List LedgerOp) : Ledger BacklogState :=
  ops.foldlM (fun s op => op.apply limits s) s

/-- **One call keeps the accounts and does not panic**, given the bounds at its peak. -/
theorem apply_accounts {tracked : LogicalIndex → Prop} {limits : BacklogLimits}
    {s : BacklogState} (h : Accounts tracked s) (op : LedgerOp)
    (hfits : FitsAll tracked (op.peak limits s)) :
    ∃ t, op.apply limits s = .ok t ∧ Accounts tracked t := by
  cases op with
  | reserve charges blocked =>
    obtain ⟨t, result, hreserve, hentered⟩ := reserve_entered s limits charges blocked
    simp only [peak, apply, hreserve] at hfits ⊢
    exact ⟨t, rfl, hentered.accounts h hfits⟩
  | finish reservation outcome now =>
    exact resolve_accounts h reservation.ids outcome now
  | drop reservation now =>
    simp only [apply, Reservation.drop]
    cases reservation.phase with
    | staged => exact resolve_accounts h reservation.ids .aborted now
    | committing => exact resolve_accounts h reservation.ids .uncertain now
  | acknowledge ids now => exact acknowledge_accounts h ids now
  | markAcknowledgementUncertain ids returned => exact mark_accounts h ids returned
  | loadDurable target operations =>
    obtain ⟨t, hload, hentered⟩ : ∃ t, s.loadDurable target operations = .ok t ∧ Entered s t := by
      refine foldlM_total (fun _ => Entered s) .refl ?_
      intro done operation rest t _ ht
      exact ⟨_, discover_eq t _, ht.discovered⟩
    simp only [peak, apply, hload] at hfits ⊢
    exact ⟨t, rfl, hentered.accounts h hfits⟩
  | beginReconciliation => exact ⟨_, rfl, h.congr rfl rfl rfl⟩
  | finishReconciliation order ticket target present now =>
    have hpeak : ∀ t found, s.discoverPresent target present = .ok (t, found) →
        FitsAll tracked t.charges := by
      intro t found hdiscover
      simpa only [peak, hdiscover] using hfits
    obtain ⟨t, released, hfinish, ht⟩ :=
      finishReconciliation_accounts h order ticket target present now hpeak
    simp only [apply, hfinish]
    exact ⟨t, rfl, ht⟩

/-- Every call of a sequence satisfies `P` at its peak. -/
def AlongRun (limits : BacklogLimits) (P : Charges → Prop) : BacklogState → List LedgerOp → Prop
  | _, [] => True
  | s, op :: rest =>
    P (op.peak limits s) ∧ ∀ t, op.apply limits s = .ok t → AlongRun limits P t rest

/-- No member has 2³² or more outstanding operations. -/
def MembersFit (charges : Charges) : Prop :=
  ∀ index member, tally charges (ofMember index member) < 2 ^ 32

/-- The charged bytes of `index` sum to less than 2⁶⁴. -/
def BytesFit (index : LogicalIndex) (charges : Charges) : Prop :=
  tally charges (bytesIn index) ≤ U64_MAX

theorem run_accounts {tracked : LogicalIndex → Prop} {limits : BacklogLimits} (ops : List LedgerOp) :
    ∀ {s : BacklogState}, Accounts tracked s → AlongRun limits MembersFit s ops →
      (∀ index, tracked index → AlongRun limits (BytesFit index) s ops) →
      ∃ t, run limits s ops = .ok t ∧ Accounts tracked t := by
  induction ops with
  | nil =>
    intro s h _ _
    exact ⟨s, rfl, h⟩
  | cons op rest ih =>
    intro s h hmembers hbytes
    have hfits : FitsAll tracked (op.peak limits s) := by
      intro index
      exact ⟨hmembers.1 index, fun hexact => (hbytes index hexact).1⟩
    obtain ⟨t, happly, ht⟩ := apply_accounts h op hfits
    obtain ⟨final, hfinal, hlast⟩ := ih ht (hmembers.2 t happly)
      (fun index hexact => (hbytes index hexact).2 t happly)
    refine ⟨final, ?_, hlast⟩
    rwa [run, foldlM_cons, happly]

end LedgerOp

/-- **The accounts of every run.**  While no member has 2³² or more outstanding operations, no
    sequence of calls panics, and after it every aggregate is what the charges determine: the
    retained bytes of every index whose charged bytes stayed below 2⁶⁴, every member's reference
    count, every generation's operation count, the presence of every entry, and the uncertain
    index. -/
theorem ledger_accounts_of_members_fit (limits : BacklogLimits) (ops : List LedgerOp)
    (hmembers : LedgerOp.AlongRun limits LedgerOp.MembersFit .empty ops) :
    ∃ s, LedgerOp.run limits .empty ops = .ok s ∧
      Accounts (fun index => LedgerOp.AlongRun limits (LedgerOp.BytesFit index) .empty ops) s :=
  LedgerOp.run_accounts ops (accounts_empty _) hmembers (fun _ hexact => hexact)

/-- Few charges fit. -/
theorem membersFit_of_length {charges : Charges} (h : charges.entries.length < 2 ^ 32) :
    LedgerOp.MembersFit charges := by
  intro index member
  refine lt_of_le_of_lt ?_ h
  have hle : ∀ n ∈ charges.entries.map fun entry => ofMember index member entry.2, n ≤ 1 := by
    intro n hn
    obtain ⟨entry, -, rfl⟩ := mem_map.mp hn
    unfold ofMember
    split <;> omega
  have hsum := sum_le_card_nsmul _ 1 hle
  simpa [tally, FinMap.total] using hsum

/-- An operation is reserved, its commit returns without an outcome, and a reconciliation
    begins. -/
def sampleOps : List LedgerOp :=
  [.reserve [sampleCharge ⟨1, one_clear⟩ 24] [],
    .finish ⟨[⟨1, one_clear⟩], .committing⟩ .uncertain 5, .beginReconciliation]

theorem ledger_accounts_sample :
    ∃ s, LedgerOp.run ⟨1000, 1⟩ .empty sampleOps = .ok s ∧ Accounts (fun index =>
      LedgerOp.AlongRun ⟨1000, 1⟩ (LedgerOp.BytesFit index) .empty sampleOps) s := by
  refine ledger_accounts_of_members_fit ⟨1000, 1⟩ sampleOps ?_
  refine ⟨membersFit_of_length (by decide), fun t ht => ?_⟩
  cases ht
  refine ⟨membersFit_of_length (by decide), fun t ht => ?_⟩
  cases ht
  refine ⟨membersFit_of_length (by decide), fun t ht => ?_⟩
  trivial

/-! ## §5. The bound on a member's operations. -/

theorem token_bit_clear (n : Nat) :
    BitVec.ofNat 128 (n % 2 ^ 127) &&& HelixDb.Queue.OPERATION_TOKEN_BIT = 0 := by
  apply BitVec.eq_of_getLsbD_eq
  intro i hi
  rw [BitVec.getLsbD_and, BitVec.getLsbD_ofNat]
  by_cases hbit : i = 127
  · have hlow : (n % 2 ^ 127).testBit 127 = false :=
      Nat.testBit_lt_two_pow (Nat.mod_lt n (Nat.two_pow_pos 127))
    rw [hbit, hlow]
    simp
  · have hoff : HelixDb.Queue.OPERATION_TOKEN_BIT.getLsbD i = false := by
      simp only [HelixDb.Queue.OPERATION_TOKEN_BIT, BitVec.getLsbD_shiftLeft]
      have hlow : i < 127 := by omega
      simp [hlow]
    rw [hoff]
    simp

/-- The `n`-th of 2¹²⁷ distinct operation IDs. -/
def numberedId (n : Nat) : QueuedOperationId :=
  ⟨BitVec.ofNat 128 (n % 2 ^ 127), token_bit_clear n⟩

theorem numberedId_injective {m n : Nat} (hm : m < 2 ^ 127) (hn : n < 2 ^ 127)
    (h : numberedId m = numberedId n) : m = n := by
  have hget := congrArg (fun id => id.get.toNat) h
  simp only [numberedId, BitVec.toNat_ofNat] at hget
  omega

/-- The first `n` numbered operations on one entity. -/
def oneEntity (n : Nat) : List StoredOperation :=
  (List.range n).map fun k => (numberedId k, ⟨.node, 7⟩, 0)

/-- The queue the operations are loaded from. -/
def sampleTarget : QueueTarget := ⟨.legacyUnscoped, .initial _, .initial _⟩

/-- The one member of the numbered operations. -/
def sampleMember : Member := (.initial _, ⟨.node, 7⟩)

/-- **The reference count of one member after `n` loads is `n` modulo 2³².** -/
theorem loadDurable_oneEntity (n : Nat) (hn : n ≤ 2 ^ 127) :
    ∃ s, BacklogState.empty.loadDurable sampleTarget (oneEntity n) = .ok s ∧
      (∀ k, n ≤ k → k < 2 ^ 127 → s.charges.lookup (numberedId k) = none) ∧
      (((s.indexes.lookup sampleTarget.logicalIndex).getD .empty).members.lookup
        sampleMember).getD 0 = n % 2 ^ 32 ∧
      (0 < n → (((s.indexes.lookup sampleTarget.logicalIndex).getD .empty).members.lookup
        sampleMember).isSome = true) ∧
      tally s.charges (ofMember sampleTarget.logicalIndex sampleMember) = n ∧
      tally s.charges (bytesIn sampleTarget.logicalIndex) = n * OPERATION_OVERHEAD_BYTES := by
  induction n with
  | zero =>
    refine ⟨.empty, rfl, ?_, ?_, ?_, ?_, ?_⟩
    · intro k _ _
      exact AList.lookup_empty _
    · rfl
    · intro hpos
      exact absurd hpos (Nat.lt_irrefl 0)
    · rfl
    · rfl
  | succ n ih =>
    obtain ⟨s, hload, hfree, hreferences, -, htally, hbytes⟩ := ih (by omega)
    have hnew : s.charges.lookup (numberedId n) = none := hfree n (Nat.le_refl n) (by omega)
    generalize ha : storedCharge sampleTarget (numberedId n, ⟨.node, 7⟩, 0) = a
    have hid : a.id = numberedId n := by rw [← ha]; rfl
    have htarget : a.target = sampleTarget := by rw [← ha]; rfl
    have hmember : (a.target.generation, a.entity) = sampleMember := by rw [← ha]; rfl
    have hcharged : chargedBytes a.encodedBytes = OPERATION_OVERHEAD_BYTES := by
      rw [← ha]
      show chargedBytes 0 = OPERATION_OVERHEAD_BYTES
      decide
    have hmembers : (((s.inserted a (.durable .discovered)).count (.discovered a.id)).indexes.lookup
        sampleTarget.logicalIndex).getD .empty = ((s.indexes.lookup
          sampleTarget.logicalIndex).getD .empty).add sampleMember OPERATION_OVERHEAD_BYTES
            (s.admissions + 1) := by
      show ((s.indexes.insert _ _).lookup _).getD .empty = _
      rw [htarget, hcharged]
      rw [htarget] at hmember
      rw [hmember]
      rfl
    rw [← hid] at hnew
    refine ⟨(s.inserted a (.durable .discovered)).count (.discovered a.id), ?_, ?_, ?_, ?_, ?_, ?_⟩
    · rw [loadDurable, oneEntity, range_succ, map_append, foldlM_append]
      rw [loadDurable, oneEntity] at hload
      rw [hload]
      have hdiscover : s.discover a =
          .ok ((s.inserted a (.durable .discovered)).count (.discovered a.id)) := by
        rw [discover_eq, discovered, hnew]
        rfl
      simp only [map_cons, foldlM_cons, ha, bind,
        Except.bind, hdiscover]
      rfl
    · intro k hle hlt
      show (s.charges.insert a.id _).lookup (numberedId k) = none
      rw [FinMap.lookup_insert_eq, hid, if_neg]
      · exact hfree k (by omega) hlt
      · intro heq
        have hsame := numberedId_injective hlt (by omega) heq
        omega
    · rw [hmembers, IndexUsage.add, AList.lookup_insert, getD_some, refIncrement]
      omega
    · intro _
      rw [hmembers]
      rfl
    · show tally (s.charges.insert a.id _) _ = _
      rw [tally_insert_new hnew, ofMember, if_pos]
      · omega
      · exact ⟨congrArg QueueTarget.logicalIndex htarget, hmember⟩
    · show tally (s.charges.insert a.id _) _ = _
      rw [tally_insert_new hnew, bytesIn_self (congrArg QueueTarget.logicalIndex htarget)]
      show chargedBytes a.encodedBytes + _ = _
      rw [Nat.add_mul]
      omega

/-- 2³² operations on one entity leave its reference count at 0. -/
theorem ledger_reference_count_wraps :
    ∃ limits ops s index member, LedgerOp.run limits .empty ops = .ok s ∧
      tally s.charges (bytesIn index) ≤ U64_MAX ∧
      tally s.charges (ofMember index member) = 2 ^ 32 ∧
      (((s.indexes.lookup index).getD .empty).members.lookup member) = some 0 := by
  obtain ⟨s, hload, -, hreferences, hpresent, htally, hbytes⟩ :=
    loadDurable_oneEntity (2 ^ 32) (by norm_num)
  refine ⟨⟨0, 0⟩, [.loadDurable sampleTarget (oneEntity (2 ^ 32))], s, _, _, ?_, ?_, htally, ?_⟩
  · rw [LedgerOp.run, List.foldlM_cons, LedgerOp.apply, hload]
    rfl
  · rw [hbytes, OPERATION_OVERHEAD_BYTES, U64_MAX]
    norm_num
  · obtain ⟨references, hlookup⟩ := Option.isSome_iff_exists.mp (hpresent (by norm_num))
    rw [hlookup, Option.getD_some] at hreferences
    rw [hlookup, hreferences]
    norm_num

end HelixDb.Backlog
