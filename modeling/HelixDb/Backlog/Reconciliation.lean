/-
  HelixDb.Backlog.Reconciliation

  **RECONCILIATION TICKETS AND ADMISSIONS.**

  A ticket is the value the reconciliation clock takes when a reconciliation
  begins, and a charge that becomes uncertain is marked with the clock of that
  moment.  So every mark made after a ticket was issued is at or above the
  ticket, and a charge whose mark is below it was already uncertain then.

    • `Since.apply` — what one call keeps of the charges marked before a ticket;
    • `finishReconciliation_released` — the charges a reconciliation releases;
    • `reconciliation_releases_and_admissions` — both, over every run, and the
      admissions every reservation, discovery and commit return issues.
-/
import HelixDb.Backlog.Counting
import HelixDb.Backlog.Runs

namespace HelixDb.Backlog

open HelixDb.Lib HelixDb.Lifecycle BacklogState

/-! ## §1. Admissions. -/

/-- The latest admission of `target` is above `n`, and so are the `u64`s the source keeps as long as
    fewer than `2 ^ 64` admissions have been issued. -/
def AdmittedAfter (n : Nat) (s : BacklogState) (target : QueueTarget) : Prop :=
  ∃ a, s.latestAdmission target = some a ∧ n < a ∧
    (s.admissions < 2 ^ 64 → UInt64.ofNat n < UInt64.ofNat a)

variable {now : Instant} {outcome : ReservationOutcome} {charge : Charge}

section Admissions

variable {s t : BacklogState} {id : QueuedOperationId}

theorem Admits.after {n : Nat} {target other : QueueTarget} (h : Admits s t target)
    (hn : n ≤ s.admissions) (hother : other = target ∨ AdmittedAfter n s other) :
    AdmittedAfter n t other := by
  by_cases hsame : other = target
  · have hnext : n < t.admissions := by
      rw [h.admissions]
      omega
    refine ⟨t.admissions, by rw [h.latest, if_pos hsame], hnext, ?_⟩
    intro hbound
    exact (UInt64.ofNat_lt_iff_lt (hnext.trans hbound) hbound).mpr hnext
  · obtain ⟨a, ha, hlt, hu64⟩ := hother.resolve_left hsame
    refine ⟨a, by rw [h.latest, if_neg hsame, ha], hlt, ?_⟩
    intro hbound
    rw [h.admissions] at hbound
    exact hu64 (by omega)

/-- A returned commit finds its operation reserved, or it moves nothing. -/
theorem settleReserved_admissions {settled : ChargeState} {previous : Option ChargeState}
    (h : s.transition id (settleReserved settled) = .ok (t, previous)) (hsound : IndexSound s) :
    (∃ charge, s.charges.lookup id = some charge ∧ charge.state = .reserved ∧
        previous = some .reserved ∧ ∀ u, t.readmit id = .ok u → Admits s u charge.target) ∨
      ((∀ charge, s.charges.lookup id = some charge → charge.state ≠ .reserved) ∧
        previous ≠ some .reserved ∧ t.indexes = s.indexes) := by
  obtain ⟨hprevious, -, -, hcharges, hindexes, hadmissions⟩ := transition_ok h hsound
  by_cases hreserved : ∃ charge, s.charges.lookup id = some charge ∧ charge.state = .reserved
  · obtain ⟨charge, hcharge, hstate⟩ := hreserved
    rw [hcharge, Option.map_some, hstate] at hprevious
    refine .inl ⟨charge, hcharge, hstate, hprevious, ?_⟩
    intro u hreadmit
    have hmoved := hcharges id
    rw [if_pos rfl, hcharge] at hmoved
    have hu := readmit_admits hreadmit hmoved
    refine ⟨by rw [hu.admissions, hadmissions], ?_⟩
    intro other
    rw [hu.latest]
    unfold latestAdmission
    rw [hindexes]
    rfl
  · refine .inr ⟨fun charge hcharge hstate => hreserved ⟨charge, hcharge, hstate⟩, ?_, hindexes⟩
    rw [hprevious]
    intro hsome
    obtain ⟨charge, hcharge, hstate⟩ := Option.map_eq_some_iff.mp hsome
    exact hreserved ⟨charge, hcharge, hstate⟩

/-- **A commit return admits its operation again exactly when it was still reserved.** -/
theorem resolveOne_admissions {marked : Nat}
    (hne : outcome ≠ .aborted) (h : resolveOne outcome now marked s id = .ok t)
    (hsound : IndexSound s) :
    (∃ charge, s.charges.lookup id = some charge ∧ charge.state = .reserved ∧
        Admits s t charge.target) ∨
      t.indexes = s.indexes ∧
        ∀ charge, s.charges.lookup id = some charge → charge.state ≠ .reserved := by
  cases outcome with
  | committed =>
    obtain ⟨⟨u, previous⟩, htransition, hreturn⟩ := except_bind_ok h
    rcases settleReserved_admissions htransition (hsound.of_eq rfl rfl) with
      ⟨charge, hcharge, hstate, rfl, hadmits⟩ | ⟨hnot, hprevious, hindexes⟩
    · have ht := hadmits t hreturn
      exact .inl ⟨charge, hcharge, hstate, ht.admissions, ht.latest⟩
    · rcases previous with _ | (_ | _ | _) <;> first | exact absurd rfl hprevious | cases hreturn
      all_goals exact .inr ⟨hindexes, hnot⟩
  | aborted => exact absurd rfl hne
  | uncertain =>
    obtain ⟨⟨u, previous⟩, htransition, hreturn⟩ := except_bind_ok h
    rcases settleReserved_admissions htransition hsound with
      ⟨charge, hcharge, hstate, rfl, hadmits⟩ | ⟨hnot, hprevious, hindexes⟩
    · exact .inl ⟨charge, hcharge, hstate, hadmits t hreturn⟩
    · rcases previous with _ | (_ | _ | _) <;> first | exact absurd rfl hprevious | cases hreturn
      all_goals exact .inr ⟨hindexes, hnot⟩

end Admissions

/-! ## §2. Charges marked before a ticket. -/

/-- The ledger `s` some calls after the ticket was issued in `base`: what is marked below the ticket
    was so marked in `base`. -/
structure Since (base : BacklogState) (ticket : Nat) (s : BacklogState) : Prop where
  sound : IndexSound s
  tied : Tied s
  ticket_le : ticket ≤ s.reconcileClock
  clock_le : s.reconcileClock ≤ U64_MAX
  issued : Issued s
  admissions : base.admissions ≤ s.admissions
  older : ∀ id charge commit marked, s.charges.lookup id = some charge →
    charge.state = .uncertain commit marked → marked < ticket →
    base.charges.lookup id = some charge

variable {present : List StoredOperation} {target : QueueTarget}

section Runs

variable {base s t : BacklogState} {ticket : Nat} {id : QueuedOperationId}

section

variable (h : Since base ticket s)
include h

/-- **One charge moves**, and if it is uncertain afterwards it is as it was or marked since. -/
theorem Since.steps {v : View} (hsteps : Steps s t id v)
    (hv : ∀ charge commit marked, v.charge = some charge → charge.state = .uncertain commit marked →
      (s.view id).charge = some charge ∨ ticket ≤ marked) : Since base ticket t where
  sound := hsteps.sound
  tied := hsteps.tied
  ticket_le := hsteps.clock ▸ h.ticket_le
  clock_le := hsteps.clock ▸ h.clock_le
  issued := hsteps.issued h.issued
  admissions := h.admissions.trans hsteps.admissions
  older := by
    intro other charge commit marked hcharge hstate hlt
    have hview := congrArg View.charge (hsteps.views other)
    rw [show (t.view other).charge = some charge from hcharge] at hview
    split_ifs at hview with hother
    · subst hother
      rcases hv charge commit marked hview.symm hstate with hold | hnew
      · exact h.older other charge commit marked hold hstate hlt
      · omega
    · exact h.older other charge commit marked hview.symm hstate hlt

theorem Since.acknowledgeOne
    (hstep : acknowledgeOne now s id = .ok t) : Since base ticket t := by
  refine h.steps (acknowledgeOne_steps hstep h.sound h.tied) ?_
  intro charge commit marked hcharge _
  unfold View.acknowledge at hcharge
  split at hcharge
  case h_1 hnone => exact .inl hcharge
  case h_2 => cases hcharge

theorem Since.markOne {marked : Nat} {returned : Instant}
    (hmarked : ticket ≤ marked) (hstep : markOne marked returned s id = .ok t) :
    Since base ticket t := by
  refine h.steps (markOne_steps hstep h.sound h.tied) ?_
  intro charge commit m hcharge hstate
  obtain ⟨old, -, rfl⟩ := Option.map_eq_some_iff.mp hcharge
  cases hstate
  exact .inr hmarked

theorem Since.resolveOne {marked : Nat} (hmarked : ticket ≤ marked)
    (hstep : resolveOne outcome now marked s id = .ok t) : Since base ticket t := by
  refine h.steps (resolveOne_steps hstep h.sound h.tied) ?_
  -- A reserved charge gets the mark of this return; any other keeps its state.
  have hsettled : ∀ settled charge commit m, (∀ c n, settled = .uncertain c n → ticket ≤ n) →
      (s.view id).charge.map (·.move (settleReserved settled)) = some charge →
      charge.state = .uncertain commit m → (s.view id).charge = some charge ∨ ticket ≤ m := by
    intro settled charge commit m hmark hcharge hstate
    obtain ⟨old, hold, rfl⟩ := Option.map_eq_some_iff.mp hcharge
    rcases settleReserved_eq hstate with hsame | hnew
    · left
      rw [hold]
      exact congrArg some (Charge.mk.injEq .. ▸ ⟨rfl, rfl, rfl, hsame.trans hstate.symm⟩)
    · exact .inr (hmark commit m hnew.symm)
  intro charge commit m hcharge hstate
  cases outcome with
  | committed => exact hsettled _ charge commit m (by simp) hcharge hstate
  | aborted => cases hcharge
  | uncertain =>
    refine hsettled _ charge commit m ?_ hcharge hstate
    intro c n heq
    cases heq
    exact hmarked

/-- A new charge enters, certain. -/
theorem Since.inserted {a : OperationCharge} {state : ChargeState}
    (hnew : s.charges.lookup a.id = none) (hcertain : state.isUncertain = false) :
    Since base ticket (s.inserted a state) := by
  refine h.steps (inserted_steps state hnew h.sound h.tied) ?_
  intro charge commit marked hcharge hstate
  cases hcharge
  rw [show state = .uncertain commit marked from hstate] at hcertain
  cases hcertain

theorem Since.discover {a : OperationCharge}
    (hstep : s.discover a = .ok t) : Since base ticket t := by
  rw [discover_eq] at hstep
  cases hstep
  unfold discovered
  split
  case isTrue => exact h
  case isFalse hnew =>
    have hs : Since base ticket (s.inserted a (.durable .discovered)) :=
      h.inserted (Option.not_isSome_iff_eq_none.mp hnew) rfl
    exact ⟨hs.sound.of_eq rfl rfl, tied_count_discovered hs.tied, hs.ticket_le, hs.clock_le,
      hs.issued, hs.admissions, hs.older⟩

end

theorem Since.settleOne {acc acc' : BacklogState × Nat} {settled : Settled}
    (h : Since base ticket acc.1) (hstep : settleOne now acc settled = .ok acc') :
    Since base ticket acc'.1 := by
  refine h.steps (settleOne_steps hstep h.sound h.tied) ?_
  intro charge commit' marked hcharge hstate
  obtain ⟨origin, hdurable⟩ := View.settle_durable hcharge
  simp [hdurable] at hstate

section

variable (h : Since base ticket s)
include h

theorem Since.discoverPresent {found : Finset QueuedOperationId}
    (hstep : s.discoverPresent target present = .ok (t, found)) : Since base ticket t := by
  refine foldlM_preserves (fun acc : BacklogState × Finset QueuedOperationId =>
    Since base ticket acc.1) h ?_ hstep
  intro operation acc acc' hacc hone
  unfold presentOne at hone
  split at hone
  case h_1 =>
    obtain ⟨u, hdiscover, hreturn⟩ := except_bind_ok hone
    cases hreturn
    exact hacc.discover hdiscover
  case h_2 =>
    split at hone <;> cases hone <;> exact hacc

theorem Since.resolve {ids : List QueuedOperationId} {woken : Bool}
    (hstep : s.resolve ids outcome now = .ok (t, woken)) : Since base ticket t := by
  obtain ⟨final, hfold, hreturn⟩ := except_bind_ok hstep
  cases hreturn
  exact foldlM_preserves (Since base ticket) h (fun hu => hu.resolveOne h.ticket_le) hfold

/-- **A reservation** admits the target of every charge. -/
theorem Since.admitAll {charges : List OperationCharge}
    (hwf : WellFormed s charges) (hadmitAll : s.admitAll charges = .ok t) :
    Since base ticket t ∧ ∀ charge ∈ charges, AdmittedAfter s.admissions t charge.target := by
  refine And.imp_right (fun hinv => hinv.2.2) (foldlM_invariant (fun done u =>
    Since base ticket u ∧ Admitted s done u ∧ s.admissions ≤ u.admissions ∧
      ∀ charge ∈ done, AdmittedAfter s.admissions u charge.target)
    ⟨h, admitted_nil s, le_rfl, by simp⟩ ?_ hadmitAll)
  rintro done charge rest u u' hcharges ⟨hu, hadmitted, hle, hdone⟩ hone
  cases hone
  have hid := notMem_of_nodup hwf.distinct hcharges
  have hnew : u.charges.lookup charge.id = none := by
    rw [hadmitted.others charge.id hid]
    exact hwf.fresh charge (by simp [hcharges])
  have hadmits := inserted_admits u charge .reserved
  refine ⟨hu.inserted hnew rfl, hadmitted.inserted hid, ?_, ?_⟩
  · have hnext := hadmits.admissions
    omega
  · intro other hother
    rcases List.mem_append.mp hother with hold | hlast
    · exact hadmits.after hle (.inr (hdone other hold))
    · rw [List.mem_singleton.mp hlast]
      exact hadmits.after hle (.inl rfl)

/-- **Every call** keeps the marks older than the ticket as they were. -/
theorem Since.apply {limits : BacklogLimits} {op : LedgerOp}
    (hstep : op.apply limits s = .ok t) : Since base ticket t := by
  cases op with
  | reserve charges blocked =>
    obtain ⟨⟨u, result⟩, hreserve, rfl⟩ := except_map_ok hstep
    rcases reserve_ok_cases hreserve with ⟨-, -, rfl⟩ | ⟨-, -, hwf, hadmitAll⟩
    · exact h
    · exact (h.admitAll hwf hadmitAll).1
  | finish reservation outcome now =>
    obtain ⟨⟨u, woken⟩, hresolve, rfl⟩ := except_map_ok hstep
    exact h.resolve hresolve
  | drop reservation now =>
    obtain ⟨⟨u, woken⟩, hdrop, rfl⟩ := except_map_ok hstep
    unfold Reservation.drop at hdrop
    split at hdrop <;> exact h.resolve hdrop
  | acknowledge ids now =>
    exact foldlM_preserves (Since base ticket) h Since.acknowledgeOne hstep
  | markAcknowledgementUncertain ids returned =>
    exact foldlM_preserves (Since base ticket) h (fun hu => hu.markOne h.ticket_le) hstep
  | loadDurable target operations =>
    exact foldlM_preserves (Since base ticket) h (fun hu => hu.discover) hstep
  | beginReconciliation =>
    cases hstep
    exact ⟨h.sound, ⟨h.tied.committed, h.tied.discovered, h.tied.acknowledged, h.tied.timed⟩,
      h.ticket_le.trans (le_saturatingAdd h.clock_le), saturatingAdd_le _ _, h.issued, h.admissions,
      h.older⟩
  | finishReconciliation order ticket' target present now =>
    obtain ⟨⟨u, released⟩, hfinish, rfl⟩ := except_map_ok hstep
    obtain ⟨⟨s', found⟩, hdiscover, hrest⟩ := except_bind_ok hfinish
    have hs' := h.discoverPresent hdiscover
    dsimp only at hrest
    split at hrest
    case h_1 =>
      cases hrest
      exact hs'
    case h_2 ids _ =>
      obtain ⟨settled, -, hfold⟩ := except_bind_ok hrest
      exact foldlM_preserves (fun acc : BacklogState × Nat => Since base ticket acc.1) hs'
        Since.settleOne hfold

theorem Since.run {limits : BacklogLimits} {ops : List LedgerOp}
    (hrun : LedgerOp.run limits s ops = .ok t) : Since base ticket t := by
  exact foldlM_preserves (Since base ticket) h (fun hu => hu.apply) hrun

end

theorem since_empty : Since .empty 0 .empty where
  sound target id hmem := by simp [empty] at hmem
  tied := tied_empty
  ticket_le := le_rfl
  clock_le := Nat.zero_le _
  issued target a hlatest := by cases hlatest
  admissions := le_rfl
  older id charge commit marked _ _ hlt := by omega

theorem Since.rebase (h : Since base ticket s) : Since s 0 s :=
  { h with
    ticket_le := Nat.zero_le _
    admissions := le_rfl
    older := fun _ _ _ _ hcharge _ _ => hcharge }

/-- The ticket of a reconciliation that begins. -/
theorem Since.begin (h : Since base ticket s) :
    Since s s.beginReconciliation.2 s.beginReconciliation.1 where
  sound := h.sound
  tied := ⟨h.tied.committed, h.tied.discovered, h.tied.acknowledged, h.tied.timed⟩
  ticket_le := le_rfl
  clock_le := saturatingAdd_le _ _
  issued := h.issued
  admissions := le_rfl
  older _ _ _ _ hcharge _ _ := hcharge

/-! ## §3. What a reconciliation releases. -/

/-- The read keeps every charge and finds the uncertain ones it shows. -/
theorem discoverPresent_kept
    {found : Finset QueuedOperationId} (h : s.discoverPresent target present = .ok (t, found)) (hcharge : s.charges.lookup id = some charge) :
    t.charges.lookup id = some charge ∧
      (charge.state.isUncertain = true → id ∈ present.map Prod.fst → id ∈ found) := by
  refine foldlM_invariant (fun done (acc : BacklogState × Finset QueuedOperationId) =>
    acc.1.charges.lookup id = some charge ∧
      (charge.state.isUncertain = true → id ∈ done.map Prod.fst → id ∈ acc.2))
    ⟨hcharge, by simp⟩ ?_ h
  rintro done operation rest ⟨u, seen⟩ ⟨u', seen'⟩ - ⟨hkept, hseen⟩ hone
  have hmem : ∀ {ids : Finset QueuedOperationId}, (id = operation.1 → id ∈ ids) → seen ⊆ ids →
      charge.state.isUncertain = true → id ∈ (done ++ [operation]).map Prod.fst → id ∈ ids := by
    intro ids hlast hsub huncertain hid
    rw [List.map_append, List.mem_append] at hid
    rcases hid with hold | hnew
    · exact hsub (hseen huncertain hold)
    · exact hlast (by simpa using hnew)
  unfold presentOne at hone
  split at hone
  case h_1 hnone =>
    have hne : id ≠ operation.1 := by
      rintro rfl
      simp [hkept] at hnone
    rw [discover_eq] at hone
    cases hone
    refine ⟨?_, hmem (fun heq => absurd heq hne) (Finset.Subset.refl _)⟩
    simp only [discovered, storedCharge, hnone]
    show (u.charges.insert operation.1 _).lookup id = _
    rw [FinMap.lookup_insert_eq, if_neg hne, hkept]
  case h_2 shown hshown =>
    split at hone
    case isTrue =>
      cases hone
      exact ⟨hkept, hmem (fun heq => by simp [heq]) (Finset.subset_insert _ _)⟩
    case isFalse hcertain =>
      cases hone
      refine ⟨hkept, ?_⟩
      intro huncertain
      refine hmem ?_ (Finset.Subset.refl _) huncertain
      rintro rfl
      rw [hkept] at hshown
      cases hshown
      exact absurd huncertain hcertain

/-- A charge that is gone after the settling loop was settled as absent. -/
theorem settled_absent {items : List Settled} {acc : BacklogState × Nat} (h : Since base ticket s) (hcharge : s.charges.lookup id = some charge)
    (hfold : items.foldlM (settleOne now) (s, 0) = .ok acc)
    (hgone : acc.1.charges.lookup id = none) : ∃ commit, (id, commit, false) ∈ items := by
  refine And.right (foldlM_invariant (fun done (acc : BacklogState × Nat) =>
    Since base ticket acc.1 ∧
      (acc.1.charges.lookup id = none → ∃ commit, (id, commit, false) ∈ done))
    ⟨h, fun hnone => by simp [hcharge] at hnone⟩ ?_ hfold) hgone
  rintro done ⟨other, commit, present⟩ rest acc acc' - ⟨hacc, hdone⟩ hone
  refine ⟨hacc.settleOne hone, ?_⟩
  intro hnone
  have hview := congrArg View.charge ((settleOne_steps hone hacc.sound hacc.tied).views id)
  rw [show (acc'.1.view id).charge = none from hnone] at hview
  by_cases hid : id = other
  · subst hid
    rw [if_pos rfl] at hview
    cases present with
    | false => exact ⟨commit, by simp⟩
    | true =>
      have hbefore : acc.1.charges.lookup id = none := by
        cases commit <;> exact Option.map_eq_none_iff.mp hview.symm
      obtain ⟨commit', hmem⟩ := hdone hbefore
      exact ⟨commit', List.mem_append_left _ hmem⟩
  · rw [if_neg hid] at hview
    obtain ⟨commit', hmem⟩ := hdone hview.symm
    exact ⟨commit', List.mem_append_left _ hmem⟩

/-- **What a reconciliation releases**: uncertain charges of its target, absent from the read and
    marked before the ticket. -/
theorem finishReconciliation_released {order : VisitOrder} {released limit : Nat}
    (h : Since base ticket s)
    (hfinish : s.finishReconciliation order limit target present now = .ok (t, released))
    (hcharge : s.charges.lookup id = some charge) (hgone : t.charges.lookup id = none) :
    charge.target = target ∧ id ∉ present.map Prod.fst ∧
      ∃ commit marked, charge.state = .uncertain commit marked ∧ marked < limit := by
  obtain ⟨⟨s', found⟩, hdiscover, hrest⟩ := except_bind_ok hfinish
  have hs' := h.discoverPresent hdiscover
  obtain ⟨hkept, hfound⟩ := discoverPresent_kept hdiscover hcharge
  dsimp only at hrest
  split at hrest
  case h_1 =>
    cases hrest
    simp [hkept] at hgone
  case h_2 ids hids =>
    obtain ⟨settled, hsettled, hfold⟩ := except_bind_ok hrest
    obtain ⟨commit, hitem⟩ := settled_absent hs' hkept hfold hgone
    obtain ⟨item, hmem, rfl⟩ := List.mem_filterMap.mp hitem
    obtain ⟨id', hid, hsettlement⟩ := exists_of_mem_mapM hsettled hmem
    obtain ⟨charge', commit', marked, hcharge', hstate, heq, hwhy⟩ := settlement_inv hsettlement
    obtain ⟨rfl, hrest'⟩ := Prod.mk.inj heq
    obtain ⟨rfl, habsent⟩ := Prod.mk.inj hrest'
    rw [hkept] at hcharge'
    cases hcharge'
    have hnot : id ∉ found := of_decide_eq_false habsent.symm
    have hindexed : id ∈ (s'.uncertain.lookup target).getD ∅ := by
      rw [hids]
      exact (order.mem_visit ids id).mp hid
    obtain ⟨indexed, hindexedCharge, htarget, huncertain⟩ := hs'.sound target id hindexed
    rw [hkept] at hindexedCharge
    cases hindexedCharge
    exact ⟨htarget, fun hpresent => hnot (hfound huncertain hpresent), commit, marked, hstate,
      hwhy.resolve_left fun hboth => hnot hboth.1⟩

/-! ## §4. Both parts. -/

/-- **A commit return** admits the target of every operation still reserved. -/
theorem Since.resolve_admits {ids : List QueuedOperationId} {woken : Bool} (h : Since base ticket s) (hne : outcome ≠ .aborted)
    (hstep : s.resolve ids outcome now = .ok (t, woken)) :
    ∀ id ∈ ids, ∀ charge, s.charges.lookup id = some charge → charge.state = .reserved →
      AdmittedAfter s.admissions t charge.target := by
  obtain ⟨final, hfold, hreturn⟩ := except_bind_ok hstep
  cases hreturn
  refine And.right (And.right (And.right (foldlM_invariant (fun done u =>
    Since base ticket u ∧ s.admissions ≤ u.admissions ∧
    (∀ id, id ∉ done → u.charges.lookup id = s.charges.lookup id) ∧
    ∀ id ∈ done, ∀ charge, s.charges.lookup id = some charge → charge.state = .reserved →
      AdmittedAfter s.admissions u charge.target) ⟨h, le_rfl, fun _ _ => rfl, by simp⟩ ?_ hfold)))
  rintro done id rest u u' - ⟨hu, hle, hothers, hdone⟩ hone
  have hsteps := resolveOne_steps hone hu.sound hu.tied
  have hkept : ∀ other, other ∉ done ++ [id] →
      u'.charges.lookup other = s.charges.lookup other := by
    intro other hother
    simp only [List.mem_append, List.mem_singleton, not_or] at hother
    have hview := congrArg View.charge (hsteps.views other)
    rw [if_neg hother.2] at hview
    exact hview.trans (hothers other hother.1)
  refine ⟨hu.resolveOne h.ticket_le hone, ?_, hkept, ?_⟩
  · exact hle.trans hsteps.admissions
  · intro other hother charge hcharge hstate
    -- Either it was admitted before this step, or the step is its own.
    have hbefore : other ∈ done ∨ other = id ∧ u.charges.lookup id = some charge := by
      by_cases hmem : other ∈ done
      · exact .inl hmem
      · have heq : other = id := by simpa [hmem] using hother
        exact .inr ⟨heq, by rw [← heq, hothers other hmem, hcharge]⟩
    rcases resolveOne_admissions hne hone hu.sound with
      ⟨found, hfound, -, hadmits⟩ | ⟨hsame, hnot⟩
    · refine hadmits.after hle ?_
      rcases hbefore with hmem | ⟨-, hheld⟩
      · exact .inr (hdone other hmem charge hcharge hstate)
      · rw [hfound] at hheld
        cases hheld
        exact .inl rfl
    · rcases hbefore with hmem | ⟨-, hheld⟩
      · obtain ⟨a, ha, hlt, hu64⟩ := hdone other hmem charge hcharge hstate
        refine ⟨a, ?_, hlt, fun hbound => hu64 (hsteps.admissions.trans_lt hbound)⟩
        unfold latestAdmission
        rwa [hsame]
      · exact absurd hstate (hnot charge hheld)

end Runs

/-- **Tickets and admissions.**  Whatever calls precede a ticket and follow it, a reconciliation
    with it releases a charge only if the charge is uncertain, belongs to the target, is absent
    from the read and was uncertain by the same mark when the ticket was issued.  A reservation, the
    discovery of an operation that is not retained, and the commit return of one that is still
    reserved give its target an admission above every one issued before. -/
theorem reconciliation_releases_and_admissions (limits : BacklogLimits) {before after : List LedgerOp}
    {s t : BacklogState} (hbefore : LedgerOp.run limits .empty before = .ok s)
    (hafter : LedgerOp.run limits s after = .ok t) :
    (∀ rest order target present now u released, after = .beginReconciliation :: rest →
      t.finishReconciliation order s.beginReconciliation.2 target present now = .ok (u, released) →
      ∀ id charge, t.charges.lookup id = some charge → u.charges.lookup id = none →
        charge.target = target ∧ id ∉ present.map Prod.fst ∧ charge.state.isUncertain = true ∧
          s.charges.lookup id = some charge) ∧
    (∀ target a, s.latestAdmission target = some a → a ≤ t.admissions) ∧
    (∀ charges blocked u reservation,
      t.reserve limits charges blocked = .ok (u, .ok reservation) →
      ∀ charge ∈ charges, AdmittedAfter t.admissions u charge.target) ∧
    (∀ charge u, t.charges.lookup charge.id = none → t.discover charge = .ok u →
      AdmittedAfter t.admissions u charge.target) ∧
    (∀ ids outcome now u woken, outcome ≠ .aborted →
      t.resolve ids outcome now = .ok (u, woken) →
      ∀ id ∈ ids, ∀ charge, t.charges.lookup id = some charge → charge.state = .reserved →
        AdmittedAfter t.admissions u charge.target) := by
  have hs := since_empty.run hbefore
  have ht := hs.rebase.run hafter
  refine ⟨?_, ?_, ?_, ?_, ?_⟩
  · intro rest order target present now u released hrest hfinish id charge hcharge hgone
    subst hrest
    have hsince := hs.begin.run hafter
    obtain ⟨htarget, habsent, commit, marked, hstate, hlt⟩ :=
      finishReconciliation_released hsince hfinish hcharge hgone
    exact ⟨htarget, habsent, by rw [hstate]; rfl,
      hsince.older id charge commit marked hcharge hstate hlt⟩
  · intro target a hlatest
    exact (hs.issued target a hlatest).trans ht.admissions
  · intro charges blocked u reservation hreserve
    rcases reserve_ok_cases hreserve with ⟨error, herror, -⟩ | ⟨-, -, hwf, hadmitAll⟩
    · cases herror
    · exact (ht.admitAll hwf hadmitAll).2
  · intro charge u hnew hdiscover
    rw [discover_eq, discovered, hnew] at hdiscover
    cases hdiscover
    exact (inserted_admits t charge (.durable .discovered)).after le_rfl (.inl rfl)
  · intro ids outcome now u woken hne hresolve
    exact ht.resolve_admits hne hresolve

/-- An operation whose producer saw no outcome is released by the next reconciliation. -/
theorem reconciliation_releases_and_admissions_sample :
    ∃ s t u order, LedgerOp.run ⟨1000, 1⟩ .empty
        [.reserve [sampleCharge ⟨1, by decide⟩ 24] [],
          .finish ⟨[⟨1, by decide⟩], .committing⟩ .uncertain 9] = .ok s ∧
      LedgerOp.run ⟨1000, 1⟩ s [.beginReconciliation] = .ok t ∧
      t.finishReconciliation order s.beginReconciliation.2 sampleTarget [] 10 = .ok (u, 1) ∧
      ∀ target a, s.latestAdmission target = some a → a ≤ t.admissions := by
  have hreleased : (do
      let s ← LedgerOp.run ⟨1000, 1⟩ .empty
        [.reserve [sampleCharge ⟨1, by decide⟩ 24] [],
          .finish ⟨[⟨1, by decide⟩], .committing⟩ .uncertain 9]
      let t ← LedgerOp.run ⟨1000, 1⟩ s [.beginReconciliation]
      let (_, released) ← t.finishReconciliation ⟨fun ids => ids.sort (· ≤ ·), by simp, by simp⟩
        s.beginReconciliation.2 sampleTarget [] 10
      return released : Ledger Nat) = .ok 1 := by
    decide +kernel
  obtain ⟨s, hs, hrest⟩ := except_bind_ok hreleased
  obtain ⟨t, ht, hrest⟩ := except_bind_ok hrest
  obtain ⟨⟨u, released⟩, hu, hreturn⟩ := except_bind_ok hrest
  cases hreturn
  exact ⟨s, t, u, _, hs, ht, hu, (reconciliation_releases_and_admissions ⟨1000, 1⟩ hs ht).2.1⟩

/-- The commit return of an operation that publication has already touched admits nothing. -/
theorem commit_return_without_admission :
    (do
      let s ← LedgerOp.run ⟨1000, 1⟩ .empty
        [.reserve [sampleCharge ⟨1, by decide⟩ 24] [],
          .markAcknowledgementUncertain [⟨1, by decide⟩] 9]
      let (t, _) ← s.resolve [⟨1, by decide⟩] .committed 10
      return (s.admissions, t.latestAdmission sampleTarget) : Ledger _) =
        .ok (1, some 1) := by
  decide +kernel

end HelixDb.Backlog
