/-
  HelixDb.Backlog.Reserve

  **ADMISSION**: `reserve` admits every operation one transaction stages, or
  none of them.

    • `admitAll_ok` — an admitted transaction charges every operation;
    • `admitted_within_limits` — what an admission grows stays within its limit,
      blocker repairs apart;
    • `reserve_batch_too_large` — a transaction that could never be admitted is
      told so, before any retryable refusal;
    • `reserve_contract` — the three together, and that a refusal leaves the
      ledger as it was.
-/
import HelixDb.Backlog.Ledger
import HelixDb.Lib.FoldM

namespace HelixDb.Backlog

open HelixDb.Lib HelixDb.Keys HelixDb.Lifecycle List

/-! ## §1. Limits, blocked builds and errors. -/

/-- Per-logical-index admission ceilings. -/
structure BacklogLimits where
  maxRetainedBytes : UInt64
  maxMembers : UInt64
deriving DecidableEq

/-- A reserving transaction's operation on the entity a blocker names. -/
inductive BlockerRepair where
  /-- Leaves the entity indexed; exempt only as its first queued operation. -/
  | replace (entity : IndexEntity)
  /-- Removes the entity from the index; always exempt. -/
  | remove (entity : IndexEntity)
deriving DecidableEq

/-- A hidden build stopped on a blocker, as the reserving transaction read it. -/
structure BlockedBuild where
  target : QueueTarget
  operationId : IndexOperationId
  repair : Option BlockerRepair

/-- `IndexOperationBatchResource` and `IndexBackpressureResource`. -/
inductive BacklogResource where
  | retainedBytes
  | pendingMembers
deriving DecidableEq

/-- The errors `reserve` returns. -/
inductive ReserveError where
  | invariantViolation (message : String)
  | indexOperationBatchTooLarge (indexId : UInt64) (resource : BacklogResource)
      (observed limit : Nat)
  | indexBackpressure (scope : DataScope) (indexId : UInt64) (resource : BacklogResource)
      (requested limit : Nat)
  | indexBuildBlocked (scope : DataScope) (indexId : UInt64) (operationId : IndexOperationId)
      (resource : BacklogResource) (requested limit : Nat)

/-! ## §2. Staging. -/

/-- What one transaction stages for one logical index. -/
structure StagedIndex where
  generation : IndexGenerationId
  bytes : Nat
  entities : Finset IndexEntity

/-- The accumulators of the staging loop. -/
structure Staging where
  ids : Finset QueuedOperationId
  staged : FinMap LogicalIndex StagedIndex

variable {staging acc : Staging} {charges : List OperationCharge}

namespace BacklogState

/-- The staged work of a charge's index, or a new entry for it. -/
def stagedEntry (acc : Staging) (charge : OperationCharge) : StagedIndex :=
  (acc.staged.lookup charge.target.logicalIndex).getD ⟨charge.target.generation, 0, ∅⟩

/-- One charge of the staging loop. -/
def stageOne (s : BacklogState) (acc : Staging) (charge : OperationCharge) :
    Except ReserveError Staging :=
  let staged := stagedEntry acc charge
  if charge.id ∈ acc.ids ∨ (s.charges.lookup charge.id).isSome then
    .error (.invariantViolation "queued operation ID was reserved twice")
  else if staged.generation ≠ charge.target.generation then
    .error (.invariantViolation
      "one transaction staged operations for two generations of one index")
  else .ok {
    ids := Insert.insert charge.id acc.ids
    staged := acc.staged.insert charge.target.logicalIndex
      { generation := staged.generation
        bytes := saturatingAdd staged.bytes (chargedBytes charge.encodedBytes)
        entities := Insert.insert charge.entity staged.entities } }

/-- The staging loop. -/
def stage (s : BacklogState) (charges : List OperationCharge) : Except ReserveError Staging :=
  charges.foldlM s.stageOne ⟨∅, ∅⟩

/-- The entries of a `BTreeMap` in iteration order. -/
def inOrder (staged : FinMap LogicalIndex StagedIndex) : List (Σ _ : LogicalIndex, StagedIndex) :=
  staged.entries.insertionSort (fun a b => a.1 ≤ b.1)

/-! ## §3. The two checks. -/

/-- The first resource above its limit, as (resource, observed, limit). -/
def firstAbove (candidates : List (BacklogResource × Nat × Nat)) :
    Option (BacklogResource × Nat × Nat) :=
  candidates.find? fun candidate => decide (candidate.2.2 < candidate.2.1)

/-- A transaction whose own charges for one index exceed a limit. -/
def batchTooLarge (limits : BacklogLimits) (entry : Σ _ : LogicalIndex, StagedIndex) :
    Option ReserveError := do
  let (resource, observed, limit) ← firstAbove
    [(.retainedBytes, entry.2.bytes, limits.maxRetainedBytes.toNat),
      (.pendingMembers, entry.2.entities.card, limits.maxMembers.toNat)]
  return .indexOperationBatchTooLarge entry.1.indexId.get resource observed limit

/-- Whether `(generation, entity)` is a member of an index with this usage. -/
def isMember (usage : Option IndexUsage) (generation : IndexGenerationId)
    (entity : IndexEntity) : Bool :=
  usage.any fun usage => (usage.members.lookup (generation, entity)).isSome

/-- The first resource the transaction grows beyond its limit. -/
def saturated (limits : BacklogLimits) (usage : Option IndexUsage) (staged : StagedIndex) :
    Option (BacklogResource × Nat × Nat) :=
  let fresh := (staged.entities.filter fun entity =>
    isMember usage staged.generation entity = false).card
  firstAbove
    (([(.retainedBytes, (usage.map (·.retainedBytes)).getD 0, staged.bytes,
        limits.maxRetainedBytes.toNat),
      (.pendingMembers, (usage.map (·.members.keys.length)).getD 0, fresh,
        limits.maxMembers.toNat)].filter
          fun (candidate : BacklogResource × Nat × Nat × Nat) => decide (0 < candidate.2.2.1)).map
        fun candidate =>
          (candidate.1, saturatingAdd candidate.2.1 candidate.2.2.1, candidate.2.2.2))

/-- Whether the transaction's staged work is the repair its build's blocker asks for. -/
def exempt (usage : Option IndexUsage) (staged : StagedIndex) (build : BlockedBuild) : Bool :=
  decide (staged.entities.card = 1) && build.repair.any fun repair =>
    match repair with
    | .replace entity =>
      decide (entity ∈ staged.entities) && !isMember usage staged.generation entity
    | .remove entity => decide (entity ∈ staged.entities)

/-- The refusal of a transaction that grows one index beyond a limit. -/
def refusal (s : BacklogState) (limits : BacklogLimits) (blocked : List BlockedBuild)
    (entry : Σ _ : LogicalIndex, StagedIndex) : Option ReserveError := do
  let usage := s.indexes.lookup entry.1
  let (resource, requested, limit) ← saturated limits usage entry.2
  let target : QueueTarget := ⟨entry.1.scope, entry.1.indexId, entry.2.generation⟩
  match blocked.find? (fun build => decide (build.target = target)) with
  | none =>
    some (.indexBackpressure entry.1.scope entry.1.indexId.get resource requested limit)
  | some build =>
    if exempt usage entry.2 build then none
    else some (.indexBuildBlocked entry.1.scope entry.1.indexId.get build.operationId resource
      requested limit)

/-! ## §4. `reserve`. -/

/-- Admits the charges, all as reserved. -/
def admitAll (s : BacklogState) (charges : List OperationCharge) : Ledger BacklogState :=
  charges.foldlM (fun s charge => s.insert charge .reserved) s

/-- `IndexOperationBacklog::reserve`. -/
def reserve (s : BacklogState) (limits : BacklogLimits) (charges : List OperationCharge)
    (blocked : List BlockedBuild) : Ledger (BacklogState × Except ReserveError Reservation) :=
  match s.stage charges with
  | .error error => return (s, .error error)
  | .ok staging =>
    match (inOrder staging.staged).findSome? (batchTooLarge limits) with
    | some error => return (s, .error error)
    | none =>
      match (inOrder staging.staged).findSome? (s.refusal limits blocked) with
      | some error => return (s, .error error)
      | none => do
        let s ← s.admitAll charges
        return (s, .ok ⟨charges.map (·.id), .staged⟩)

/-! ## §5. What staging computes. -/

/-- The charges of one logical index. -/
def ofIndex (charges : List OperationCharge) (index : LogicalIndex) : List OperationCharge :=
  charges.filter fun charge => decide (charge.target.logicalIndex = index)

/-- The charged bytes of one logical index, not saturated. -/
def chargedTotal (charges : List OperationCharge) (index : LogicalIndex) : Nat :=
  ((ofIndex charges index).map fun charge => chargedBytes charge.encodedBytes).sum

/-- The distinct entities of one logical index. -/
def entitiesOf (charges : List OperationCharge) (index : LogicalIndex) : Finset IndexEntity :=
  ((ofIndex charges index).map (·.entity)).toFinset

/-- A charge list a transaction can stage: fresh distinct IDs, and one generation per index. -/
structure WellFormed (s : BacklogState) (charges : List OperationCharge) : Prop where
  distinct : (charges.map (·.id)).Nodup
  fresh : ∀ charge ∈ charges, s.charges.lookup charge.id = none
  oneGeneration : ∀ a ∈ charges, ∀ b ∈ charges, a.target.logicalIndex = b.target.logicalIndex →
    a.target.generation = b.target.generation

section Staging

variable {s : BacklogState} {done : List OperationCharge} {a : OperationCharge}

theorem WellFormed.of_append {rest : List OperationCharge} (h : WellFormed s (done ++ rest)) :
    WellFormed s done where
  distinct := by
    have hdistinct := h.distinct
    rw [map_append] at hdistinct
    exact hdistinct.of_append_left
  fresh charge hcharge := h.fresh charge (by simp [hcharge])
  oneGeneration x hx y hy := h.oneGeneration x (by simp [hx]) y (by simp [hy])

theorem mem_ofIndex {charge : OperationCharge} {index : LogicalIndex} :
    charge ∈ ofIndex charges index ↔ charge ∈ charges ∧ charge.target.logicalIndex = index := by
  simp [ofIndex]

theorem ofIndex_concat_self :
    ofIndex (done ++ [a]) a.target.logicalIndex = ofIndex done a.target.logicalIndex ++ [a] := by
  simp [ofIndex]

theorem ofIndex_concat_of_ne {index : LogicalIndex} (h : a.target.logicalIndex ≠ index) :
    ofIndex (done ++ [a]) index = ofIndex done index := by
  simp [ofIndex, h]

theorem chargedTotal_concat_self : chargedTotal (done ++ [a]) a.target.logicalIndex =
    chargedTotal done a.target.logicalIndex + chargedBytes a.encodedBytes := by
  simp [chargedTotal, ofIndex_concat_self]

/-- What the staging map holds for `index` after the charges `done`. -/
def StagedIs (done : List OperationCharge) (index : LogicalIndex) : Option StagedIndex → Prop
  | none => ofIndex done index = []
  | some staged => ofIndex done index ≠ [] ∧
    (∀ charge ∈ ofIndex done index, charge.target.generation = staged.generation) ∧
    staged.bytes = min (chargedTotal done index) U64_MAX ∧ staged.entities = entitiesOf done index

/-- A charge of another index changes nothing. -/
theorem StagedIs.concat_of_ne {index : LogicalIndex} {staged : Option StagedIndex}
    (h : StagedIs done index staged) (hne : a.target.logicalIndex ≠ index) :
    StagedIs (done ++ [a]) index staged := by
  cases staged <;> simpa only [StagedIs, chargedTotal, entitiesOf, ofIndex_concat_of_ne hne] using h

/-- The invariant of the staging loop. -/
structure StagingOk (s : BacklogState) (done : List OperationCharge) (acc : Staging) : Prop where
  ids : ∀ id, id ∈ acc.ids ↔ id ∈ done.map (·.id)
  staged : ∀ index, StagedIs done index (acc.staged.lookup index)
  wellFormed : WellFormed s done

theorem stagingOk_nil (s : BacklogState) : StagingOk s [] ⟨∅, ∅⟩ where
  ids id := by simp
  staged index := rfl
  wellFormed := ⟨nodup_nil, by simp, by simp⟩

/-- The entry a charge meets: new, or that of the earlier charges of its index. -/
theorem stagedEntry_of_ok (h : StagingOk s done acc) :
    (stagedEntry acc a).bytes = min (chargedTotal done a.target.logicalIndex) U64_MAX ∧
      (stagedEntry acc a).entities = entitiesOf done a.target.logicalIndex ∧
      ((stagedEntry acc a).generation = a.target.generation ↔
        ∀ charge ∈ ofIndex done a.target.logicalIndex,
          charge.target.generation = a.target.generation) := by
  have hstaged := h.staged a.target.logicalIndex
  unfold stagedEntry
  cases hlookup : acc.staged.lookup a.target.logicalIndex with
  | none =>
    rw [hlookup, StagedIs] at hstaged
    simp [chargedTotal, entitiesOf, hstaged]
  | some staged =>
    rw [hlookup] at hstaged
    obtain ⟨hsome, hgeneration, hbytes, hentities⟩ := hstaged
    obtain ⟨first, hfirst⟩ := exists_mem_of_ne_nil _ hsome
    refine ⟨hbytes, hentities, ?_⟩
    simp only [Option.getD_some]
    constructor
    · intro heq charge hcharge
      rw [hgeneration charge hcharge, heq]
    · intro hall
      rw [← hgeneration first hfirst, hall first hfirst]

/-- A further charge keeps the list well formed exactly when the two checks of the loop pass. -/
theorem wellFormed_concat_iff (h : WellFormed s done) :
    WellFormed s (done ++ [a]) ↔
      a.id ∉ done.map (·.id) ∧ s.charges.lookup a.id = none ∧
        ∀ charge ∈ ofIndex done a.target.logicalIndex,
          charge.target.generation = a.target.generation := by
  simp only [mem_ofIndex, and_imp]
  constructor
  · intro hall
    refine ⟨?_, hall.fresh a (by simp), ?_⟩
    · have hdistinct := hall.distinct
      rw [map_append, nodup_append] at hdistinct
      intro hmem
      exact hdistinct.2.2 a.id hmem a.id (by simp) rfl
    · intro charge hcharge
      exact hall.oneGeneration charge (by simp [hcharge]) a (by simp)
  · rintro ⟨hid, hfresh, hgeneration⟩
    refine ⟨?_, ?_, ?_⟩
    · rw [map_append, nodup_append]
      refine ⟨h.distinct, by simp, ?_⟩
      intro id hmem other hother heq
      simp only [map_cons, map_nil, mem_singleton] at hother
      exact hid (hother ▸ heq ▸ hmem)
    · simpa [or_imp, forall_and] using ⟨h.fresh, hfresh⟩
    · intro x hx y hy hindex
      simp only [mem_append, mem_singleton] at hx hy
      rcases hx with hx | rfl <;> rcases hy with hy | rfl
      · exact h.oneGeneration x hx y hy hindex
      · exact hgeneration x hx hindex
      · exact (hgeneration y hy hindex.symm).symm
      · rfl

/-- **One step of the staging loop**: it succeeds exactly on a charge that keeps the list well
    formed, and keeps the invariant. -/
theorem stageOne_spec (h : StagingOk s done acc) :
    (WellFormed s (done ++ [a]) → ∃ acc', s.stageOne acc a = .ok acc') ∧
      ∀ acc', s.stageOne acc a = .ok acc' → StagingOk s (done ++ [a]) acc' := by
  obtain ⟨hbytes, hentities, hgeneration⟩ := stagedEntry_of_ok (a := a) h
  unfold stageOne
  dsimp only
  constructor
  · intro hwf
    obtain ⟨hid, hfresh, hsame⟩ := (wellFormed_concat_iff h.wellFormed).mp hwf
    rw [if_neg (by simp [h.ids, hid, hfresh]), if_neg (not_not.mpr (hgeneration.mpr hsame))]
    exact ⟨_, rfl⟩
  · intro acc' hok
    split_ifs at hok with hreserved htwo
    cases hok
    rw [not_not] at htwo
    simp only [not_or, h.ids, Option.not_isSome_iff_eq_none] at hreserved
    have hwf := (wellFormed_concat_iff h.wellFormed).mpr
      ⟨hreserved.1, hreserved.2, hgeneration.mp htwo⟩
    refine ⟨?_, ?_, hwf⟩
    · intro id
      simp [h.ids, or_comm]
    · intro index
      rw [FinMap.lookup_insert_eq]
      split_ifs with hindex
      · subst hindex
        refine ⟨by simp [ofIndex_concat_self], ?_, ?_, ?_⟩
        · intro charge hcharge
          obtain ⟨hmem, hc⟩ := mem_ofIndex.mp hcharge
          rw [htwo]
          exact hwf.oneGeneration charge hmem a (by simp) hc
        · show saturatingAdd (stagedEntry acc a).bytes (chargedBytes a.encodedBytes) = _
          rw [chargedTotal_concat_self, saturatingAdd]
          omega
        · simp [hentities, entitiesOf, ofIndex_concat_self]
      · exact (h.staged index).concat_of_ne (Ne.symm hindex)

theorem stage_ok (h : s.stage charges = .ok staging) : StagingOk s charges staging :=
  foldlM_invariant (StagingOk s) (stagingOk_nil s)
    (fun _ hinv hstep => (stageOne_spec hinv).2 _ hstep) h

/-- **Staging succeeds exactly on well-formed charge lists.** -/
theorem stage_ok_iff :
    (∃ staging, s.stage charges = .ok staging) ↔ WellFormed s charges := by
  constructor
  · rintro ⟨staging, hstaging⟩
    exact (stage_ok hstaging).wellFormed
  · intro hwf
    have htotal : ∃ staging, charges.foldlM s.stageOne ⟨∅, ∅⟩ = .ok staging ∧
        StagingOk s charges staging := by
      refine foldlM_total (StagingOk s) (stagingOk_nil s) ?_
      intro done a rest acc hcharges hinv
      have hfront : WellFormed s (done ++ [a]) := by
        rw [hcharges, append_cons] at hwf
        exact hwf.of_append
      obtain ⟨acc', hacc'⟩ := (stageOne_spec hinv).1 hfront
      exact ⟨acc', hacc', (stageOne_spec hinv).2 _ hacc'⟩
    obtain ⟨staging, hstaging, -⟩ := htotal
    exact ⟨staging, hstaging⟩

end Staging

/-! ## §6. What an admission leaves. -/

/-- The retained bytes of an index, 0 when it has no usage. -/
def retainedBytes (s : BacklogState) (index : LogicalIndex) : Nat :=
  ((s.indexes.lookup index).map (·.retainedBytes)).getD 0

/-- The members of an index. -/
def memberSet (s : BacklogState) (index : LogicalIndex) : Finset Member :=
  ((s.indexes.lookup index).map (·.members.keys.toFinset)).getD ∅

/-- The state after a list of charges is admitted. -/
structure Admitted (s : BacklogState) (done : List OperationCharge) (t : BacklogState) : Prop where
  retained : ∀ charge ∈ done, t.charges.lookup charge.id = some (entering charge .reserved)
  others : ∀ id, id ∉ done.map (·.id) → t.charges.lookup id = s.charges.lookup id
  untouched : ∀ index, ofIndex done index = [] → t.indexes.lookup index = s.indexes.lookup index
  bytes : ∀ index, ofIndex done index ≠ [] →
    t.retainedBytes index = min (s.retainedBytes index + chargedTotal done index) U64_MAX
  members : ∀ index, t.memberSet index = s.memberSet index ∪
    ((ofIndex done index).map fun charge => (charge.target.generation, charge.entity)).toFinset

section Admission

variable {s t : BacklogState} {done : List OperationCharge} {a : OperationCharge}

theorem lookup_inserted_of_ne {state : ChargeState} {index : LogicalIndex}
    (h : a.target.logicalIndex ≠ index) :
    (t.inserted a state).indexes.lookup index = t.indexes.lookup index :=
  AList.lookup_insert_ne (Ne.symm h)

theorem retainedBytes_inserted (t : BacklogState) (a : OperationCharge) (state : ChargeState) :
    (t.inserted a state).retainedBytes a.target.logicalIndex =
      saturatingAdd (t.retainedBytes a.target.logicalIndex) (chargedBytes a.encodedBytes) := by
  rw [retainedBytes, retainedBytes]
  dsimp only [inserted]
  rw [AList.lookup_insert]
  cases t.indexes.lookup a.target.logicalIndex <;> rfl

theorem memberSet_inserted (t : BacklogState) (a : OperationCharge) (state : ChargeState) :
    (t.inserted a state).memberSet a.target.logicalIndex =
      Insert.insert (a.target.generation, a.entity) (t.memberSet a.target.logicalIndex) := by
  ext member
  rw [memberSet, memberSet]
  dsimp only [inserted]
  rw [AList.lookup_insert]
  cases t.indexes.lookup a.target.logicalIndex with
  | none => simp [IndexUsage.add, IndexUsage.empty]
  | some usage =>
    simp only [Option.getD_some, Option.map_some, IndexUsage.add, mem_toFinset,
      FinMap.mem_keys_insert, Finset.mem_insert]

theorem admitted_nil (s : BacklogState) : Admitted s [] s where
  retained charge hcharge := by cases hcharge
  others _ _ := rfl
  untouched _ _ := rfl
  bytes index h := absurd rfl h
  members index := by simp [ofIndex]

/-- One more charge of an admission. -/
theorem Admitted.inserted (h : Admitted s done t) (hid : a.id ∉ done.map (·.id)) :
    Admitted s (done ++ [a]) (t.inserted a .reserved) where
  retained charge hcharge := by
    show (t.charges.insert a.id _).lookup charge.id = _
    rw [FinMap.lookup_insert_eq]
    rcases mem_append.mp hcharge with hdone | hlast
    · have hne : charge.id ≠ a.id := by
        intro heq
        exact hid (heq ▸ mem_map_of_mem hdone)
      rw [if_neg hne]
      exact h.retained charge hdone
    · rw [mem_singleton.mp hlast, if_pos rfl]
  others id hmem := by
    simp only [map_append, map_cons, map_nil, mem_append,
      mem_singleton, not_or] at hmem
    show (t.charges.insert a.id _).lookup id = _
    rw [FinMap.lookup_insert_eq, if_neg hmem.2]
    exact h.others id hmem.1
  untouched index hnil := by
    have hne : a.target.logicalIndex ≠ index := by
      rintro rfl
      simp [ofIndex_concat_self] at hnil
    rw [ofIndex_concat_of_ne hne] at hnil
    rw [lookup_inserted_of_ne hne]
    exact h.untouched index hnil
  bytes index hne := by
    by_cases hindex : a.target.logicalIndex = index
    · subst hindex
      rw [retainedBytes_inserted, chargedTotal_concat_self, saturatingAdd]
      -- The first charge of an index meets the usage before the admission.
      by_cases hfirst : ofIndex done a.target.logicalIndex = []
      · rw [retainedBytes, h.untouched _ hfirst, ← retainedBytes, chargedTotal, hfirst]
        simp
      · rw [h.bytes _ hfirst]
        omega
    · rw [ofIndex_concat_of_ne hindex] at hne
      rw [retainedBytes, lookup_inserted_of_ne hindex, ← retainedBytes, h.bytes index hne,
        chargedTotal, chargedTotal, ofIndex_concat_of_ne hindex]
  members index := by
    by_cases hindex : a.target.logicalIndex = index
    · subst hindex
      rw [memberSet_inserted, h.members, ofIndex_concat_self]
      simp
    · rw [memberSet, lookup_inserted_of_ne hindex, ← memberSet, h.members,
        ofIndex_concat_of_ne hindex]

/-- **Admission is total**: no charge of a well-formed list panics. -/
theorem admitAll_ok (h : (charges.map (·.id)).Nodup) :
    ∃ t, s.admitAll charges = .ok t ∧ Admitted s charges t := by
  refine foldlM_total (Admitted s) (admitted_nil s) ?_
  intro done a rest t hcharges hinv
  exact ⟨t.inserted a .reserved, rfl, hinv.inserted (notMem_of_nodup h hcharges)⟩

end Admission

/-! ## §7. The contract. -/

/-- The number of members, as the `u64` the ledger reports. -/
def membersLen (s : BacklogState) (index : LogicalIndex) : Nat :=
  min (s.memberSet index).card U64_MAX

/-- The check of one staged index passes through a blocker repair's exemption. -/
def exempted (s : BacklogState) (limits : BacklogLimits) (blocked : List BlockedBuild)
    (entry : Σ _ : LogicalIndex, StagedIndex) : Bool :=
  (saturated limits (s.indexes.lookup entry.1) entry.2).isSome &&
    (s.refusal limits blocked entry).isNone

/-- The transaction uses a repair exemption for some index. -/
def UsesExemption (s : BacklogState) (limits : BacklogLimits) (charges : List OperationCharge)
    (blocked : List BlockedBuild) : Prop :=
  ∃ staging, s.stage charges = .ok staging ∧
    ∃ entry ∈ inOrder staging.staged, s.exempted limits blocked entry = true

/-- The charges of one index alone exceed a limit.  A byte limit of `u64::MAX` is no limit: the
    sums saturate at it. -/
def ExceedsAlone (limits : BacklogLimits) (charges : List OperationCharge)
    (index : LogicalIndex) : Prop :=
  (limits.maxRetainedBytes.toNat < U64_MAX ∧
      limits.maxRetainedBytes.toNat < chargedTotal charges index) ∨
    limits.maxMembers.toNat < (entitiesOf charges index).card

section Contract

variable {s t : BacklogState} {limits : BacklogLimits} {charges : List OperationCharge}
  {blocked : List BlockedBuild} {entry : Σ _ : LogicalIndex, StagedIndex}

theorem mem_inOrder {staged : FinMap LogicalIndex StagedIndex} :
    entry ∈ inOrder staged ↔ staged.lookup entry.1 = some entry.2 := by
  rw [inOrder, mem_insertionSort, ← Option.mem_def, AList.mem_lookup_iff]

/-- A returned error means the ledger is as before; a reservation means every charge entered. -/
theorem reserve_ok_cases {result : Except ReserveError Reservation}
    (h : s.reserve limits charges blocked = .ok (t, result)) :
    (∃ error, result = .error error ∧ t = s) ∨
      (∃ reservation, result = .ok reservation ∧ WellFormed s charges ∧ s.admitAll charges = .ok t) := by
  unfold reserve at h
  cases hstage : s.stage charges with
  | error error =>
    rw [hstage] at h
    cases h
    exact .inl ⟨error, rfl, rfl⟩
  | ok staging =>
    rw [hstage] at h
    dsimp only at h
    split at h
    · cases h
      exact .inl ⟨_, rfl, rfl⟩
    split at h
    · cases h
      exact .inl ⟨_, rfl, rfl⟩
    · obtain ⟨u, hadmitAll, hreturn⟩ := except_bind_ok h
      cases hreturn
      exact .inr ⟨_, rfl, (stage_ok hstage).wellFormed, hadmitAll⟩

/-- **The three ways `reserve` returns.** -/
theorem reserve_cases (s : BacklogState) (limits : BacklogLimits)
    (charges : List OperationCharge) (blocked : List BlockedBuild) :
    (¬ WellFormed s charges ∧ ∃ error, s.reserve limits charges blocked = .ok (s, .error error)) ∨
    ∃ staging, s.stage charges = .ok staging ∧
      ((∃ error, (inOrder staging.staged).findSome? (batchTooLarge limits) = some error ∧
          s.reserve limits charges blocked = .ok (s, .error error)) ∨
        ((inOrder staging.staged).findSome? (batchTooLarge limits) = none ∧
          ((∃ error, s.reserve limits charges blocked = .ok (s, .error error)) ∨
            ((inOrder staging.staged).findSome? (s.refusal limits blocked) = none ∧
              ∃ t, Admitted s charges t ∧
                s.reserve limits charges blocked =
                  .ok (t, .ok ⟨charges.map (·.id), .staged⟩))))) := by
  unfold reserve
  cases hstage : s.stage charges with
  | error error =>
    refine .inl ⟨?_, error, rfl⟩
    rw [← stage_ok_iff]
    rintro ⟨staging, hstaging⟩
    simp [hstage] at hstaging
  | ok staging =>
    refine .inr ⟨staging, rfl, ?_⟩
    dsimp only
    cases hlarge : (inOrder staging.staged).findSome? (batchTooLarge limits) with
    | some error => exact .inl ⟨error, rfl, rfl⟩
    | none =>
      refine .inr ⟨rfl, ?_⟩
      cases hrefusal : (inOrder staging.staged).findSome? (s.refusal limits blocked) with
      | some error => exact .inl ⟨error, rfl⟩
      | none =>
        obtain ⟨t, hadmitAll, hadmitted⟩ := admitAll_ok (s := s) (stage_ok hstage).wellFormed.distinct
        refine .inr ⟨rfl, t, hadmitted, ?_⟩
        rw [hadmitAll]
        rfl

theorem firstAbove_eq_none {candidates : List (BacklogResource × Nat × Nat)} :
    firstAbove candidates = none ↔ ∀ candidate ∈ candidates, candidate.2.1 ≤ candidate.2.2 := by
  simp [firstAbove]

/-- The entities the transaction adds as members of one index. -/
def freshEntities (usage : Option IndexUsage) (staged : StagedIndex) : Finset IndexEntity :=
  staged.entities.filter fun entity => isMember usage staged.generation entity = false

/-- Only an index above a limit by its own charges is too large. -/
theorem batchTooLarge_eq_none :
    batchTooLarge limits entry = none ↔
      entry.2.bytes ≤ limits.maxRetainedBytes.toNat ∧
        entry.2.entities.card ≤ limits.maxMembers.toNat := by
  have hfirst : batchTooLarge limits entry = none ↔ firstAbove
      [(.retainedBytes, entry.2.bytes, limits.maxRetainedBytes.toNat),
        (.pendingMembers, entry.2.entities.card, limits.maxMembers.toNat)] = none := by
    unfold batchTooLarge
    cases firstAbove _ <;> simp
  rw [hfirst, firstAbove_eq_none]
  simp

theorem batchTooLarge_form {error : ReserveError} (h : batchTooLarge limits entry = some error) :
    ∃ indexId resource observed limit,
      error = .indexOperationBatchTooLarge indexId resource observed limit := by
  obtain ⟨⟨resource, observed, limit⟩, -, herror⟩ := Option.bind_eq_some_iff.mp h
  cases herror
  exact ⟨_, _, _, _, rfl⟩

variable {index : LogicalIndex}

/-- Every touched index is staged. -/
theorem staged_of_touched (hstage : s.stage charges = .ok staging)
    (h : ofIndex charges index ≠ []) :
    ∃ staged, (⟨index, staged⟩ : Σ _ : LogicalIndex, StagedIndex) ∈ inOrder staging.staged ∧
      StagedIs charges index (some staged) := by
  have hstaged := (stage_ok hstage).staged index
  cases hlookup : staging.staged.lookup index with
  | none =>
    rw [hlookup] at hstaged
    exact absurd hstaged h
  | some staged =>
    rw [hlookup] at hstaged
    exact ⟨staged, mem_inOrder.mpr hlookup, hstaged⟩

theorem ExceedsAlone.touched (h : ExceedsAlone limits charges index) :
    ofIndex charges index ≠ [] := by
  intro hnil
  simp [ExceedsAlone, chargedTotal, entitiesOf, hnil] at h

/-- **A transaction that can never be admitted is told so**, whatever the current usage. -/
theorem reserve_batch_too_large (blocked : List BlockedBuild) (hwf : WellFormed s charges)
    (h : ExceedsAlone limits charges index) :
    ∃ indexId resource observed limit, s.reserve limits charges blocked =
      .ok (s, .error (.indexOperationBatchTooLarge indexId resource observed limit)) := by
  rcases reserve_cases s limits charges blocked with
    ⟨hnot, -⟩ | ⟨staging, hstage, ⟨error, hlarge, hreserve⟩ | ⟨hnone, -⟩⟩
  · exact absurd hwf hnot
  · obtain ⟨entry, -, hentry⟩ := exists_of_findSome?_eq_some hlarge
    obtain ⟨indexId, resource, observed, limit, rfl⟩ := batchTooLarge_form hentry
    exact ⟨indexId, resource, observed, limit, hreserve⟩
  · obtain ⟨staged, hmem, -, -, hbytes, hentities⟩ := staged_of_touched hstage h.touched
    have hwithin := batchTooLarge_eq_none.mp (findSome?_eq_none_iff.mp hnone _ hmem)
    rw [hbytes, hentities] at hwithin
    rcases h with ⟨hlimit, hexceeds⟩ | hexceeds <;> omega

theorem chargedBytes_pos (encodedBytes : UInt64) : 0 < chargedBytes encodedBytes := by
  rw [chargedBytes, saturatingAdd, OPERATION_OVERHEAD_BYTES, U64_MAX]
  omega

theorem chargedTotal_pos (h : ofIndex charges index ≠ []) : 0 < chargedTotal charges index := by
  obtain ⟨charge, rest, hcons⟩ := exists_cons_of_ne_nil h
  rw [chargedTotal, hcons]
  exact Nat.add_pos_left (chargedBytes_pos _) _

theorem isMember_iff {generation : IndexGenerationId} {entity : IndexEntity} :
    isMember (s.indexes.lookup index) generation entity = true ↔
      (generation, entity) ∈ s.memberSet index := by
  rw [memberSet]
  cases s.indexes.lookup index with
  | none => simp [isMember]
  | some usage => simp [isMember, FinMap.mem_keys_iff, Option.isSome_iff_exists]

theorem card_memberSet (s : BacklogState) (index : LogicalIndex) :
    (s.memberSet index).card =
      ((s.indexes.lookup index).map (·.members.keys.length)).getD 0 := by
  rw [memberSet]
  cases s.indexes.lookup index with
  | none => rfl
  | some usage => exact toFinset_card_of_nodup usage.members.keys_nodup

/-- The members an admission adds are the fresh entities of its one generation. -/
theorem card_memberSet_admitted (hadmitted : Admitted s charges t)
    {staged : StagedIndex} (hstaged : StagedIs charges index (some staged)) :
    (t.memberSet index).card =
      (s.memberSet index).card + (freshEntities (s.indexes.lookup index) staged).card := by
  obtain ⟨-, hgeneration, -, hentities⟩ := hstaged
  have hfresh : t.memberSet index \ s.memberSet index =
      (freshEntities (s.indexes.lookup index) staged).image fun entity =>
        (staged.generation, entity) := by
    ext ⟨generation, entity⟩
    simp only [hadmitted.members, freshEntities, hentities, entitiesOf, Finset.mem_sdiff,
      Finset.mem_union, Finset.mem_image, Finset.mem_filter, mem_toFinset, mem_map,
      Prod.mk.injEq, ← Bool.not_eq_true, isMember_iff]
    constructor
    · rintro ⟨hold | ⟨charge, hmem, rfl, rfl⟩, hnew⟩
      · exact absurd hold hnew
      · have hsame := hgeneration charge hmem
        exact ⟨charge.entity, ⟨⟨charge, hmem, rfl⟩, hsame ▸ hnew⟩, hsame.symm, rfl⟩
    · rintro ⟨_, ⟨⟨charge, hmem, rfl⟩, hnew⟩, rfl, rfl⟩
      exact ⟨.inr ⟨charge, hmem, hgeneration charge hmem, rfl⟩, hnew⟩
  have hsubset : s.memberSet index ⊆ t.memberSet index := by
    rw [hadmitted.members]
    exact Finset.subset_union_left
  rw [← Finset.card_sdiff_add_card_eq_card hsubset, hfresh,
    Finset.card_image_of_injective _ (Prod.mk_right_injective _), Nat.add_comm]

/-- **What an admission grows stays within its limit**, unless it uses a repair exemption. -/
theorem admitted_within_limits (hstage : s.stage charges = .ok staging)
    (hrefusal : (inOrder staging.staged).findSome? (s.refusal limits blocked) = none)
    (hadmitted : Admitted s charges t) (hexempt : ¬ UsesExemption s limits charges blocked)
    (htouched : ofIndex charges index ≠ []) :
    t.retainedBytes index ≤ limits.maxRetainedBytes.toNat ∧
      (s.memberSet index ≠ t.memberSet index → t.membersLen index ≤ limits.maxMembers.toNat) := by
  obtain ⟨staged, hmem, hstaged⟩ := staged_of_touched hstage htouched
  have hnone := findSome?_eq_none_iff.mp hrefusal _ hmem
  have hwithin : saturated limits (s.indexes.lookup index) staged = none := by
    by_contra hsome
    refine hexempt ⟨staging, hstage, _, hmem, ?_⟩
    rw [exempted, hnone]
    simpa [Option.isSome_iff_ne_none] using hsome
  simp only [saturated, firstAbove_eq_none, forall_mem_map, forall_mem_filter, forall_mem_cons,
    decide_eq_true_eq] at hwithin
  obtain ⟨hbytes, hmembers, -⟩ := hwithin
  have hcard := card_memberSet_admitted hadmitted hstaged
  have hpos := chargedTotal_pos htouched
  obtain ⟨-, -, hstagedBytes, -⟩ := hstaged
  have hmax : 0 < U64_MAX := by decide
  constructor
  · have hafter := hbytes (by omega)
    rw [← retainedBytes, saturatingAdd] at hafter
    rw [hadmitted.bytes index htouched]
    omega
  · intro hgrew
    have hfresh : 0 < (freshEntities (s.indexes.lookup index) staged).card := by
      rw [Nat.pos_iff_ne_zero]
      intro hzero
      refine hgrew (Finset.eq_of_subset_of_card_le ?_ (by omega))
      rw [hadmitted.members]
      exact Finset.subset_union_left
    have hafter : saturatingAdd _ (freshEntities (s.indexes.lookup index) staged).card ≤ _ :=
      hmembers hfresh
    rwa [← card_memberSet, saturatingAdd, ← hcard] at hafter

/-- **The admission contract.**  `reserve` never panics.  It either returns an error and leaves the
    ledger unchanged or admits every charge; what an admission without a repair exemption grows
    stays within its limit; and a well-formed transaction whose charges for one index alone exceed
    a limit is too large, whatever the current usage. -/
theorem reserve_contract (s : BacklogState) (limits : BacklogLimits)
    (charges : List OperationCharge) (blocked : List BlockedBuild) :
    ∃ t result, s.reserve limits charges blocked = .ok (t, result) ∧
      ((∃ error, result = .error error ∧ t = s) ∨
        (result = .ok ⟨charges.map (·.id), .staged⟩ ∧ Admitted s charges t ∧
          (¬ UsesExemption s limits charges blocked →
            ∀ index, ofIndex charges index ≠ [] →
              (s.retainedBytes index < t.retainedBytes index →
                t.retainedBytes index ≤ limits.maxRetainedBytes.toNat) ∧
              (s.memberSet index ≠ t.memberSet index →
                t.membersLen index ≤ limits.maxMembers.toNat)))) ∧
      (WellFormed s charges → (∃ index, ExceedsAlone limits charges index) →
        ∃ indexId resource observed limit,
          result = .error (.indexOperationBatchTooLarge indexId resource observed limit)) := by
  have hlarge : ∀ {t result}, s.reserve limits charges blocked = .ok (t, result) →
      WellFormed s charges → (∃ index, ExceedsAlone limits charges index) →
        ∃ indexId resource observed limit,
          result = .error (.indexOperationBatchTooLarge indexId resource observed limit) := by
    intro t result hreserve hwf hexceeds
    obtain ⟨index, hindex⟩ := hexceeds
    obtain ⟨indexId, resource, observed, limit, htooLarge⟩ :=
      reserve_batch_too_large blocked hwf hindex
    rw [hreserve] at htooLarge
    cases htooLarge
    exact ⟨indexId, resource, observed, limit, rfl⟩
  rcases reserve_cases s limits charges blocked with
    ⟨-, error, hreserve⟩ | ⟨staging, hstage, ⟨error, -, hreserve⟩ |
      ⟨-, ⟨error, hreserve⟩ | ⟨hrefusal, t, hadmitted, hreserve⟩⟩⟩
  · exact ⟨s, _, hreserve, .inl ⟨error, rfl, rfl⟩, hlarge hreserve⟩
  · exact ⟨s, _, hreserve, .inl ⟨error, rfl, rfl⟩, hlarge hreserve⟩
  · exact ⟨s, _, hreserve, .inl ⟨error, rfl, rfl⟩, hlarge hreserve⟩
  · refine ⟨t, _, hreserve, .inr ⟨rfl, hadmitted, ?_⟩, hlarge hreserve⟩
    intro hexempt index htouched
    have hwithin := admitted_within_limits hstage hrefusal hadmitted hexempt htouched
    exact ⟨fun _ => hwithin.1, hwithin.2⟩

end Contract

/-- A charge of one operation of the first generation of the first index. -/
def sampleCharge (id : QueuedOperationId) (encodedBytes : UInt64) : OperationCharge :=
  ⟨⟨.legacyUnscoped, .initial _, .initial _⟩, ⟨.node, 7⟩, id, encodedBytes⟩

/-- Charges of one index beyond its byte limit without `IndexOperationBatchTooLarge`: an ID staged
    twice is reported first, and at a limit of `u64::MAX` the saturated sum is within it. -/
theorem reserve_exceeding_not_too_large :
    (∃ limits charges index,
      limits.maxRetainedBytes.toNat < chargedTotal charges index ∧
      BacklogState.empty.reserve limits charges [] = .ok (BacklogState.empty,
        .error (.invariantViolation "queued operation ID was reserved twice"))) ∧
    ∃ limits charges index,
      limits.maxRetainedBytes.toNat < chargedTotal charges index ∧
      ∃ t reservation, BacklogState.empty.reserve limits charges [] = .ok (t, .ok reservation) := by
  constructor
  · refine ⟨⟨1, 1⟩, [sampleCharge ⟨1, by decide⟩ 0, sampleCharge ⟨1, by decide⟩ 0], ⟨.legacyUnscoped, .initial _⟩, ?_, rfl⟩
    decide
  · refine ⟨⟨UInt64.ofNat U64_MAX, 1⟩, [sampleCharge ⟨1, by decide⟩ (UInt64.ofNat U64_MAX),
      sampleCharge ⟨2, by decide⟩ 0], ⟨.legacyUnscoped, .initial _⟩, ?_, _, _, rfl⟩
    decide

end BacklogState

end HelixDb.Backlog
