/-
  HelixDb.Lifecycle.Watermarks

  **ALLOCATION OF INDEX IDENTITIES**: logical index IDs and vector physical IDs
  are taken from two persisted watermarks; physical IDs skip the IDs that legacy
  namespaces have reserved.

  One transaction is one step: a transaction that fails leaves the rows as they
  are and is no step.  Reservation rows may appear, change and disappear between
  the allocations, as the migrations write them.

    • `allocateVectorPhysicalId_eq` — an allocation is the preview and one write;
    • `Step.apply_inv` — what one transaction can do to the watermarks;
    • `allocated_ids_are_fresh` — no run returns an ID twice, or a reserved one.
-/
import HelixDb.Keys.ManagedIndex
import HelixDb.Lib.FinMap
import HelixDb.Lib.FoldM
import HelixDb.Lib.Machine

namespace HelixDb.Lifecycle

open HelixDb.Lib HelixDb.Keys

/-! ## §1. Rows. -/

/-- `VectorPhysicalIndexId`. -/
abbrev VectorPhysicalIndexId := NonZeroId "vector physical index ID"

/-- Ownership of an imported vector namespace. -/
inductive LegacyVectorPhysicalReservation where
  | legacySource
  | adoptionBuilding (indexId : IndexId) (generation : IndexGenerationId)
      (operationId : IndexOperationId)
  | adoptedActive (indexId : IndexId) (generation : IndexGenerationId)
  | retiringSource (indexId : IndexId) (generation : IndexGenerationId)
deriving DecidableEq

/-- A stored metadata value as `decode_metadata_value` reads it. -/
inductive MetadataRow where
  | logicalIndexIdWatermark (nextId : IndexId)
  | vectorPhysicalIdWatermark (nextId : VectorPhysicalIndexId)
  | legacyVectorPhysicalReservation (reservation : LegacyVectorPhysicalReservation)
  /-- A storage version, a queue pointer or a compaction pointer. -/
  | otherKind
  /-- Bytes that do not decode, with the text of the decoding error. -/
  | malformed (error : String)
deriving DecidableEq

/-- The longest field a record holds. -/
def MAX_LENGTH_DELIMITED_FIELD : Nat := 16 * 1024 * 1024

/-- Normalized tenant bytes of one vector partition. -/
@[ext] structure VectorTenantPartition where
  value : Bytes
  nonempty : value ≠ []
  bounded : value.length ≤ MAX_LENGTH_DELIMITED_FIELD

instance : DecidableEq VectorTenantPartition :=
  fun _ _ => decidable_of_iff' _ VectorTenantPartition.ext_iff

/-- `canonical_bytes` of a tenant partition. -/
def VectorTenantPartition.canonicalBytes (partition : VectorTenantPartition) : Bytes :=
  0x02 :: beBytes 4 partition.value.length ++ partition.value

/-- The physical index of a vector partition. -/
structure VectorPartitionMappingValue where
  indexId : IndexId
  generation : IndexGenerationId
  partition : VectorTenantPartition
  physicalIndexId : VectorPhysicalIndexId

/-- A stored mapping value as `decode_partition_mapping` reads it. -/
inductive MappingRow where
  | mapping (value : VectorPartitionMappingValue)
  | unexpectedKind
  | malformed (error : String)

/-- The rows the allocators read and write, by their keys. -/
structure IdentityRows where
  logicalWatermark : Option MetadataRow
  vectorWatermark : Option MetadataRow
  reservations : FinMap VectorPhysicalIndexId MetadataRow
  mappings : FinMap (DataScope × IndexId × IndexGenerationId × Fingerprint) MappingRow

/-- The errors of the allocators. -/
inductive IdentityError where
  | migrationRequired (reason : String)
  | identifierExhausted (kind : String)
  | invalidIndexV2Model (error : IndexV2ModelError)
  | indexCatalogCorruption (reason : String)
  | encoding (error : String)
deriving DecidableEq

/-! ## §2. Identities that follow each other. -/

variable {id : VectorPhysicalIndexId}

namespace NonZeroId

variable {kind : String} {id next : NonZeroId kind}

/-- The next identity is one above. -/
theorem checkedNext_ok (h : id.checkedNext = .ok next) : next.get.toNat = id.get.toNat + 1 := by
  unfold checkedNext at h
  split_ifs at h with hmax
  unfold new at h
  split at h
  case isTrue => cases h
  case isFalse =>
    cases h
    have hbound := toNat_le_max id.get
    show (id.get + 1).toNat = _
    rw [UInt64.toNat_add, Nat.mod_eq_of_lt]
    · rfl
    · show id.get.toNat + 1 < 2 ^ 64
      unfold U64_MAX at hmax hbound
      omega

/-- Below the last number there is a next identity. -/
theorem checkedNext_total (h : id.get.toNat ≠ U64_MAX) : ∃ next, id.checkedNext = .ok next := by
  have hbound := toNat_le_max id.get
  have hne : id.get + 1 ≠ 0 := by
    intro hzero
    have hsum := congrArg UInt64.toNat hzero
    rw [UInt64.toNat_add, Nat.mod_eq_of_lt] at hsum
    · cases hsum
    · show id.get.toNat + 1 < 2 ^ 64
      unfold U64_MAX at h hbound
      omega
  exact ⟨⟨id.get + 1, hne⟩, by rw [checkedNext, if_neg h, new, dif_neg hne]⟩

theorem lt_of_checkedNext (h : id.checkedNext = .ok next) : id < next := by
  show id.get.toNat < next.get.toNat
  have hnext := checkedNext_ok h
  omega

end NonZeroId

/-! ## §3. Allocation. -/

/-- `checked_next()?`. -/
def nextIdentity {kind : String} (id : NonZeroId kind) : Except IdentityError (NonZeroId kind) :=
  id.checkedNext.mapError .invalidIndexV2Model

theorem nextIdentity_ok {kind : String} {id next : NonZeroId kind} :
    nextIdentity id = .ok next ↔ id.checkedNext = .ok next := by
  unfold nextIdentity
  cases id.checkedNext <;> simp [Except.mapError]

namespace IdentityRows

/-- `allocate_index_id`. -/
def allocateIndexId (rows : IdentityRows) : Except IdentityError (IdentityRows × IndexId) :=
  match rows.logicalWatermark with
  | none => .error (.migrationRequired "V2 logical index watermark is missing")
  | some (.malformed error) =>
    .error (.migrationRequired ("malformed V2 logical index watermark: " ++ error))
  | some (.logicalIndexIdWatermark allocated) =>
    if allocated.get.toNat = U64_MAX then .error (.identifierExhausted "logical index ID")
    else do
      let nextId ← nextIdentity allocated
      return ({ rows with logicalWatermark := some (.logicalIndexIdWatermark nextId) }, allocated)
  | some _ =>
    .error (.migrationRequired "V2 logical index watermark contains the wrong value kind")

/-- `load_legacy_vector_physical_reservation`. -/
def loadLegacyVectorPhysicalReservation (rows : IdentityRows) (id : VectorPhysicalIndexId) :
    Except IdentityError (Option LegacyVectorPhysicalReservation) :=
  match rows.reservations.lookup id with
  | none => .ok none
  | some (.malformed error) =>
    .error (.migrationRequired ("malformed V2 legacy vector physical reservation: " ++ error))
  | some (.legacyVectorPhysicalReservation reservation) => .ok (some reservation)
  | some _ =>
    .error (.migrationRequired "legacy vector physical reservation contains the wrong value kind")

/-- `load_vector_physical_watermark`. -/
def loadVectorPhysicalWatermark (rows : IdentityRows) :
    Except IdentityError VectorPhysicalIndexId :=
  match rows.vectorWatermark with
  | none => .error (.migrationRequired "V2 vector physical watermark is missing")
  | some (.malformed error) =>
    .error (.migrationRequired ("malformed V2 vector physical watermark: " ++ error))
  | some (.vectorPhysicalIdWatermark nextId) => .ok nextId
  | some _ =>
    .error (.migrationRequired "V2 vector physical watermark contains the wrong value kind")

/-- The loop of `peek_vector_physical_id` from `candidate`. -/
def peekFrom (rows : IdentityRows) (candidate : VectorPhysicalIndexId) :
    Except IdentityError VectorPhysicalIndexId :=
  if candidate.get.toNat = U64_MAX then .error (.identifierExhausted "vector physical index ID")
  else
    match rows.loadLegacyVectorPhysicalReservation candidate with
    | .error error => .error error
    | .ok none => .ok candidate
    | .ok (some _) =>
      match _h : nextIdentity candidate with
      | .error error => .error error
      | .ok next => peekFrom rows next
termination_by U64_MAX - candidate.get.toNat
decreasing_by
  have hnext := NonZeroId.checkedNext_ok (nextIdentity_ok.mp _h)
  have hbound := toNat_le_max candidate.get
  omega

/-- `peek_vector_physical_id`. -/
def peekVectorPhysicalId (rows : IdentityRows) : Except IdentityError VectorPhysicalIndexId := do
  rows.peekFrom (← rows.loadVectorPhysicalWatermark)

/-- The rows after the physical watermark is put. -/
def putVectorWatermark (rows : IdentityRows) (nextId : VectorPhysicalIndexId) : IdentityRows :=
  { rows with vectorWatermark := some (.vectorPhysicalIdWatermark nextId) }

/-- The loop of `allocate_vector_physical_id` from `candidate`. -/
def allocateFrom (rows : IdentityRows) (candidate : VectorPhysicalIndexId) :
    Except IdentityError (IdentityRows × VectorPhysicalIndexId) :=
  match _h : nextIdentity candidate with
  | .error error => .error error
  | .ok next =>
    let rows := rows.putVectorWatermark next
    match rows.loadLegacyVectorPhysicalReservation candidate with
    | .error error => .error error
    | .ok none => .ok (rows, candidate)
    | .ok (some _) => allocateFrom rows next
termination_by U64_MAX - candidate.get.toNat
decreasing_by
  have hnext := NonZeroId.checkedNext_ok (nextIdentity_ok.mp _h)
  have hbound := toNat_le_max next.get
  omega

/-- `allocate_vector_physical_id`. -/
def allocateVectorPhysicalId (rows : IdentityRows) :
    Except IdentityError (IdentityRows × VectorPhysicalIndexId) := do
  rows.allocateFrom (← rows.peekVectorPhysicalId)

section Mappings

-- The digest behind a partition's fingerprint.
variable (sha256 : Bytes → Fingerprint)

/-- `VectorPhysicalLayout`. -/
inductive VectorPhysicalLayout where
  | unpartitioned (physicalIndexId : VectorPhysicalIndexId)
  | partitioned
deriving DecidableEq

/-- The tenant partition a mapping call is about. -/
structure MappingCall where
  scope : DataScope
  indexId : IndexId
  generation : IndexGenerationId
  layout : VectorPhysicalLayout
  partition : VectorTenantPartition

/-- `vector_partition_mapping_key`. -/
def MappingCall.key (call : MappingCall) :
    DataScope × IndexId × IndexGenerationId × Fingerprint :=
  (call.scope, call.indexId, call.generation, sha256 call.partition.canonicalBytes)

/-- `load_vector_partition_mapping`.  Equal partitions have equal fingerprints, so the last check
    of the source never decides. -/
def loadVectorPartitionMapping (rows : IdentityRows) (call : MappingCall) :
    Except IdentityError (Option VectorPhysicalIndexId) :=
  if call.layout ≠ .partitioned then
    .error (.indexCatalogCorruption
      "vector partition mapping requested for an unpartitioned generation")
  else
    match rows.mappings.lookup (call.key sha256) with
    | none => .ok none
    | some .unexpectedKind =>
      .error (.indexCatalogCorruption "vector partition mapping key contains another value kind")
    | some (.malformed error) => .error (.encoding error)
    | some (.mapping mapping) =>
      if mapping.indexId ≠ call.indexId ∨ mapping.generation ≠ call.generation ∨
          mapping.partition ≠ call.partition ∨
          sha256 mapping.partition.canonicalBytes ≠ sha256 call.partition.canonicalBytes then
        .error (.indexCatalogCorruption "vector partition mapping key and value disagree")
      else .ok (some mapping.physicalIndexId)

/-- `stage_vector_partition_mapping`. -/
def stageVectorPartitionMapping (rows : IdentityRows) (call : MappingCall) :
    Except IdentityError (IdentityRows × VectorPhysicalIndexId) := do
  match ← rows.loadVectorPartitionMapping sha256 call with
  | some physicalIndexId => return (rows, physicalIndexId)
  | none =>
    let (rows, physicalIndexId) ← rows.allocateVectorPhysicalId
    let value := ⟨call.indexId, call.generation, call.partition, physicalIndexId⟩
    return ({ rows with mappings := rows.mappings.insert (call.key sha256) (.mapping value) },
      physicalIndexId)

/-- `stage_delete_vector_partition_mapping`. -/
def stageDeleteVectorPartitionMapping (rows : IdentityRows) (call : MappingCall)
    (physicalIndexId : VectorPhysicalIndexId) : Except IdentityError IdentityRows := do
  match ← rows.loadVectorPartitionMapping sha256 call with
  | none =>
    throw (.indexCatalogCorruption "empty vector partition lost its mapping before reclamation")
  | some mapped =>
    if mapped ≠ physicalIndexId then
      throw (.indexCatalogCorruption "empty vector partition mapping changed physical ownership")
    return { rows with mappings := rows.mappings.erase (call.key sha256) }

end Mappings

end IdentityRows

/-! ## §4. What an allocation returns and leaves. -/

namespace IdentityRows

variable {rows rows' : IdentityRows}

/-- The loop of the preview stops at the first unreserved candidate. -/
theorem peekFrom_ok {candidate id : VectorPhysicalIndexId} (h : rows.peekFrom candidate = .ok id) :
    candidate ≤ id ∧ id.get.toNat ≠ U64_MAX ∧
      rows.loadLegacyVectorPhysicalReservation id = .ok none := by
  fun_induction peekFrom rows candidate with
  | case1 | case2 | case4 => cases h
  | case3 candidate hmax hfree =>
    cases h
    exact ⟨le_refl _, hmax, hfree⟩
  | case5 candidate hmax reservation hheld next hnext ih =>
    obtain ⟨hle, hrest⟩ := ih h
    exact ⟨(NonZeroId.lt_of_checkedNext (nextIdentity_ok.mp hnext)).le.trans hle, hrest⟩

theorem loadLegacyVectorPhysicalReservation_none
    (h : rows.loadLegacyVectorPhysicalReservation id = .ok none) :
    rows.reservations.lookup id = none := by
  unfold loadLegacyVectorPhysicalReservation at h
  split at h
  case h_1 hnone => exact hnone
  all_goals cases h

/-- **The preview** is an unreserved ID at or above the watermark. -/
theorem peekVectorPhysicalId_ok (h : rows.peekVectorPhysicalId = .ok id) :
    id.get.toNat ≠ U64_MAX ∧ rows.loadLegacyVectorPhysicalReservation id = .ok none ∧
      ∃ nextId ≤ id, rows.vectorWatermark = some (.vectorPhysicalIdWatermark nextId) := by
  obtain ⟨nextId, hload, hpeek⟩ := except_bind_ok h
  obtain ⟨hle, hmax, hfree⟩ := peekFrom_ok hpeek
  refine ⟨hmax, hfree, nextId, hle, ?_⟩
  unfold loadVectorPhysicalWatermark at hload
  split at hload
  case h_3 hrow =>
    cases hload
    exact hrow
  all_goals cases hload

/-- An unreserved candidate is taken at once. -/
theorem allocateFrom_of_free {id next : VectorPhysicalIndexId} (hnext : id.checkedNext = .ok next)
    (hfree : rows.loadLegacyVectorPhysicalReservation id = .ok none) :
    rows.allocateFrom id = .ok (rows.putVectorWatermark next, id) := by
  have hfree' : (rows.putVectorWatermark next).loadLegacyVectorPhysicalReservation id = .ok none :=
    hfree
  rw [allocateFrom]
  split
  case h_1 error herror =>
    simp [nextIdentity_ok.mpr hnext] at herror
  case h_2 found hfound =>
    rw [nextIdentity_ok.mpr hnext] at hfound
    cases hfound
    dsimp only
    rw [hfree']

/-- **An allocation is the preview and one write.** -/
theorem allocateVectorPhysicalId_ok (h : rows.peekVectorPhysicalId = .ok id) :
    ∃ next, id.checkedNext = .ok next ∧
      rows.allocateVectorPhysicalId = .ok (rows.putVectorWatermark next, id) := by
  obtain ⟨hmax, hfree, -⟩ := peekVectorPhysicalId_ok h
  obtain ⟨next, hnext⟩ := NonZeroId.checkedNext_total hmax
  refine ⟨next, hnext, ?_⟩
  rw [allocateVectorPhysicalId, h]
  exact allocateFrom_of_free hnext hfree

/-- An allocation returns what the preview returns, errors included. -/
theorem allocateVectorPhysicalId_eq (rows : IdentityRows) :
    rows.allocateVectorPhysicalId.map Prod.snd = rows.peekVectorPhysicalId := by
  cases h : rows.peekVectorPhysicalId with
  | error error =>
    rw [allocateVectorPhysicalId, h]
    rfl
  | ok id =>
    obtain ⟨next, -, hallocate⟩ := allocateVectorPhysicalId_ok h
    rw [hallocate]
    rfl

/-- Inversion of an allocation. -/
theorem allocateVectorPhysicalId_inv (h : rows.allocateVectorPhysicalId = .ok (rows', id)) :
    rows.peekVectorPhysicalId = .ok id ∧
      ∃ next, id.checkedNext = .ok next ∧ rows' = rows.putVectorWatermark next := by
  have hpeek : rows.peekVectorPhysicalId = .ok id := by
    rw [← allocateVectorPhysicalId_eq, h]
    rfl
  obtain ⟨next, hnext, hallocate⟩ := allocateVectorPhysicalId_ok hpeek
  rw [h] at hallocate
  cases hallocate
  exact ⟨hpeek, next, hnext, rfl⟩

theorem allocateIndexId_inv {id : IndexId} (h : rows.allocateIndexId = .ok (rows', id)) :
    rows.logicalWatermark = some (.logicalIndexIdWatermark id) ∧
      ∃ next, id.checkedNext = .ok next ∧
        rows' = { rows with logicalWatermark := some (.logicalIndexIdWatermark next) } := by
  unfold allocateIndexId at h
  split at h
  case h_3 allocated hrow =>
    split_ifs at h
    obtain ⟨next, hnext, hreturn⟩ := except_bind_ok h
    cases hreturn
    exact ⟨hrow, next, nextIdentity_ok.mp hnext, rfl⟩
  all_goals cases h

end IdentityRows

/-! ## §5. Runs of transactions. -/

/-- One committed transaction. -/
inductive Step where
  | allocateIndexId
  | allocateVectorPhysicalId
  | stageVectorPartitionMapping (call : IdentityRows.MappingCall)
  | stageDeleteVectorPartitionMapping (call : IdentityRows.MappingCall)
      (physicalIndexId : VectorPhysicalIndexId)
  /-- A migration reserves, adopts or retires a legacy namespace. -/
  | putLegacyReservation (id : VectorPhysicalIndexId)
      (reservation : LegacyVectorPhysicalReservation)
  | deleteLegacyReservation (id : VectorPhysicalIndexId)

/-- An ID returned by an allocator; for a physical ID with the rows its call read. -/
inductive Returned where
  | indexId (id : IndexId)
  | physicalId (seen : IdentityRows) (id : VectorPhysicalIndexId)

/-- The index ID a call returned. -/
def Returned.indexId? : Returned → Option IndexId
  | indexId id => some id
  | physicalId .. => none

/-- The physical ID a call returned. -/
def Returned.physicalId? : Returned → Option VectorPhysicalIndexId
  | indexId _ => none
  | physicalId _ id => some id

section Runs

variable (sha256 : Bytes → Fingerprint)

/-- The rows after a transaction and the IDs its allocations returned. -/
def Step.apply (rows : IdentityRows) : Step → Except IdentityError (IdentityRows × List Returned)
  | allocateIndexId => do
    let (after, id) ← rows.allocateIndexId
    return (after, [.indexId id])
  | allocateVectorPhysicalId => do
    let (after, id) ← rows.allocateVectorPhysicalId
    return (after, [.physicalId rows id])
  | stageVectorPartitionMapping call => do
    let (after, id) ← rows.stageVectorPartitionMapping sha256 call
    -- A mapping that exists is returned without an allocation.
    return (after, match rows.loadVectorPartitionMapping sha256 call with
      | .ok none => [.physicalId rows id]
      | _ => [])
  | stageDeleteVectorPartitionMapping call id => do
    return (← rows.stageDeleteVectorPartitionMapping sha256 call id, [])
  | putLegacyReservation id reservation =>
    .ok ({ rows with reservations :=
      rows.reservations.insert id (.legacyVectorPhysicalReservation reservation) }, [])
  | deleteLegacyReservation id =>
    .ok ({ rows with reservations := rows.reservations.erase id }, [])

/-- The transactions that commit. -/
def identityMachine : Machine IdentityRows Step Returned where
  step rows step := (step.apply sha256 rows).toOption

/-- What one transaction does to the watermarks, with the IDs it returns. -/
inductive Effect (rows rows' : IdentityRows) : List Returned → Prop where
  | index {id next : IndexId} (hfound : rows.logicalWatermark = some (.logicalIndexIdWatermark id))
      (hnext : id.checkedNext = .ok next)
      (hput : rows'.logicalWatermark = some (.logicalIndexIdWatermark next))
      (hvector : rows'.vectorWatermark = rows.vectorWatermark) : Effect rows rows' [.indexId id]
  | physical {id next : VectorPhysicalIndexId} (hpeek : rows.peekVectorPhysicalId = .ok id)
      (hnext : id.checkedNext = .ok next)
      (hput : rows'.vectorWatermark = some (.vectorPhysicalIdWatermark next))
      (hlogical : rows'.logicalWatermark = rows.logicalWatermark) :
      Effect rows rows' [.physicalId rows id]
  | none (hlogical : rows'.logicalWatermark = rows.logicalWatermark)
      (hvector : rows'.vectorWatermark = rows.vectorWatermark) : Effect rows rows' []

open IdentityRows

variable {rows rows' : IdentityRows} {returned : List Returned}

/-- **Inversion of a transaction.** -/
theorem Step.apply_inv {step : Step} (h : step.apply sha256 rows = .ok (rows', returned)) :
    Effect rows rows' returned := by
  cases step with
  | allocateIndexId =>
    obtain ⟨⟨after, id⟩, hallocate, hreturn⟩ := except_bind_ok h
    cases hreturn
    obtain ⟨hfound, next, hnext, rfl⟩ := allocateIndexId_inv hallocate
    exact .index hfound hnext rfl rfl
  | allocateVectorPhysicalId =>
    obtain ⟨⟨after, id⟩, hallocate, hreturn⟩ := except_bind_ok h
    cases hreturn
    obtain ⟨hpeek, next, hnext, rfl⟩ := allocateVectorPhysicalId_inv hallocate
    exact .physical hpeek hnext rfl rfl
  | stageVectorPartitionMapping call =>
    obtain ⟨⟨after, id⟩, hstage, hreturn⟩ := except_bind_ok h
    obtain ⟨mapped, hload, hstaged⟩ := except_bind_ok hstage
    rw [hload] at hreturn
    cases mapped with
    | none =>
      obtain ⟨⟨taken, id'⟩, hallocate, hmapped⟩ := except_bind_ok hstaged
      cases hmapped
      cases hreturn
      obtain ⟨hpeek, next, hnext, rfl⟩ := allocateVectorPhysicalId_inv hallocate
      exact .physical hpeek hnext rfl rfl
    | some found =>
      cases hstaged
      cases hreturn
      exact .none rfl rfl
  | stageDeleteVectorPartitionMapping call id =>
    obtain ⟨after, hstage, hreturn⟩ := except_bind_ok h
    cases hreturn
    obtain ⟨mapped, -, hdelete⟩ := except_bind_ok hstage
    cases mapped with
    | none => cases hdelete
    | some found =>
      by_cases hsame : found = id
      · simp only [ne_eq, hsame] at hdelete
        cases hdelete
        exact .none rfl rfl
      · simp only [ne_eq, hsame] at hdelete
        cases hdelete
  | putLegacyReservation id reservation | deleteLegacyReservation id =>
    cases h
    exact .none rfl rfl

/-- The logical IDs still to be returned start here. -/
def IdentityRows.logicalFloor (rows : IdentityRows) : WithTop IndexId :=
  match rows.logicalWatermark with
  | some (.logicalIndexIdWatermark nextId) => nextId
  | _ => ⊤

/-- The physical IDs still to be returned start here. -/
def IdentityRows.vectorFloor (rows : IdentityRows) : WithTop VectorPhysicalIndexId :=
  match rows.vectorWatermark with
  | some (.vectorPhysicalIdWatermark nextId) => nextId
  | _ => ⊤

theorem IdentityRows.logicalFloor_congr (h : rows'.logicalWatermark = rows.logicalWatermark) :
    rows'.logicalFloor = rows.logicalFloor := by rw [logicalFloor, h, logicalFloor]

theorem IdentityRows.vectorFloor_congr (h : rows'.vectorWatermark = rows.vectorWatermark) :
    rows'.vectorFloor = rows.vectorFloor := by rw [vectorFloor, h, vectorFloor]

/-- One ID between two floors. -/
theorem one_between {kind : String} {found id next : NonZeroId kind} (hle : found ≤ id)
    (hnext : id.checkedNext = .ok next) :
    (found : WithTop (NonZeroId kind)) ≤ next ∧ [id].Pairwise (· < ·) ∧
      ∀ other ∈ [id], (found : WithTop (NonZeroId kind)) ≤ other ∧
        (other : WithTop (NonZeroId kind)) < next := by
  have hlt := NonZeroId.lt_of_checkedNext hnext
  refine ⟨WithTop.coe_le_coe.mpr (hle.trans hlt.le), List.pairwise_singleton _ _, ?_⟩
  intro other hother
  cases List.mem_singleton.mp hother
  exact ⟨WithTop.coe_le_coe.mpr hle, WithTop.coe_lt_coe.mpr hlt⟩

/-- A transaction returns logical IDs between the floors it finds and leaves. -/
theorem Effect.logical (h : Effect rows rows' returned) :
    rows.logicalFloor ≤ rows'.logicalFloor ∧
      (returned.filterMap Returned.indexId?).Pairwise (· < ·) ∧
      ∀ id ∈ returned.filterMap Returned.indexId?,
        rows.logicalFloor ≤ id ∧ (id : WithTop IndexId) < rows'.logicalFloor := by
  cases h with
  | @index id next hfound hnext hput hvector =>
    have hbefore : rows.logicalFloor = id := by rw [logicalFloor, hfound]
    have hafter : rows'.logicalFloor = next := by rw [logicalFloor, hput]
    rw [hbefore, hafter]
    exact one_between (le_refl id) hnext
  | physical hpeek hnext hput hlogical =>
    exact ⟨(logicalFloor_congr hlogical).ge, .nil, by simp [Returned.indexId?]⟩
  | none hlogical hvector =>
    exact ⟨(logicalFloor_congr hlogical).ge, .nil, by simp⟩

/-- A transaction returns physical IDs between the floors it finds and leaves. -/
theorem Effect.vector (h : Effect rows rows' returned) :
    rows.vectorFloor ≤ rows'.vectorFloor ∧
      (returned.filterMap Returned.physicalId?).Pairwise (· < ·) ∧
      ∀ id ∈ returned.filterMap Returned.physicalId?,
        rows.vectorFloor ≤ id ∧ (id : WithTop VectorPhysicalIndexId) < rows'.vectorFloor := by
  cases h with
  | index hfound hnext hput hvector =>
    exact ⟨(vectorFloor_congr hvector).ge, .nil, by simp [Returned.physicalId?]⟩
  | @physical id next hpeek hnext hput hlogical =>
    obtain ⟨-, -, found, hle, hfound⟩ := peekVectorPhysicalId_ok hpeek
    have hbefore : rows.vectorFloor = found := by rw [vectorFloor, hfound]
    have hafter : rows'.vectorFloor = next := by rw [vectorFloor, hput]
    rw [hbefore, hafter]
    exact one_between hle hnext
  | none hlogical hvector =>
    exact ⟨(vectorFloor_congr hvector).ge, .nil, by simp⟩

theorem identityMachine_inv {step : Step}
    (h : (identityMachine sha256).step rows step = some (rows', returned)) :
    Effect rows rows' returned := by
  have hstep : (step.apply sha256 rows).toOption = some (rows', returned) := h
  cases happly : step.apply sha256 rows with
  | error error =>
    rw [happly] at hstep
    cases hstep
  | ok result =>
    rw [happly] at hstep
    cases hstep
    exact Step.apply_inv sha256 happly

variable {start : IdentityRows} {history : List Returned}

/-- Every physical ID of a run was the preview of its call. -/
theorem returned_was_preview
    (hrun : (identityMachine sha256).Run Machine.always start history rows) :
    ∀ seen id, Returned.physicalId seen id ∈ history → seen.peekVectorPhysicalId = .ok id := by
  refine hrun.invariant (fun history _ => ∀ seen id, Returned.physicalId seen id ∈ history →
    seen.peekVectorPhysicalId = .ok id) (by simp) ?_
  intro history s step s' returned hinv _ hstep seen id hmem
  rcases List.mem_append.mp hmem with hold | hnew
  · exact hinv seen id hold
  · cases identityMachine_inv sha256 hstep with
    | index => simp at hnew
    | physical hpeek =>
      simp only [List.mem_singleton] at hnew
      obtain ⟨rfl, rfl⟩ := hnew
      exact hpeek
    | none => simp at hnew

/-- **Fresh identities.**  Over every run of the allocations, mapping calls and changes of legacy
    reservations, no physical ID and no logical ID is returned twice, a returned physical ID is
    not reserved when it is returned, and an allocation returns what the preview returns. -/
theorem allocated_ids_are_fresh
    (hrun : (identityMachine sha256).Run Machine.always start history rows) :
    (history.filterMap Returned.physicalId?).Nodup ∧
      (∀ seen id, Returned.physicalId seen id ∈ history →
        seen.reservations.lookup id = none ∧ seen.peekVectorPhysicalId = .ok id) ∧
      rows.allocateVectorPhysicalId.map Prod.snd = rows.peekVectorPhysicalId ∧
      (history.filterMap Returned.indexId?).Nodup := by
  have hvector := hrun.issued_increasing Returned.physicalId? vectorFloor
    (fun hstep => (identityMachine_inv sha256 hstep).vector)
  have hlogical := hrun.issued_increasing Returned.indexId? logicalFloor
    (fun hstep => (identityMachine_inv sha256 hstep).logical)
  refine ⟨hvector.1.imp ne_of_lt, ?_, rows.allocateVectorPhysicalId_eq,
    hlogical.1.imp ne_of_lt⟩
  intro seen id hmem
  have hpeek := returned_was_preview sha256 hrun seen id hmem
  obtain ⟨-, hfree, -⟩ := peekVectorPhysicalId_ok hpeek
  exact ⟨loadLegacyVectorPhysicalReservation_none hfree, hpeek⟩

/-- A store with both watermarks at one and the physical ID one reserved. -/
def importedRows : IdentityRows where
  logicalWatermark := some (.logicalIndexIdWatermark (.initial _))
  vectorWatermark := some (.vectorPhysicalIdWatermark (.initial _))
  reservations := (∅ : FinMap VectorPhysicalIndexId MetadataRow).insert (.initial _)
    (.legacyVectorPhysicalReservation .legacySource)
  mappings := ∅

/-- A digest that tells no two names apart. -/
def zeroDigest (_ : Bytes) : Fingerprint := Vector.replicate 32 0

/-- Two allocations skip the reserved ID one. -/
theorem allocated_ids_are_fresh_importedRows : ∃ rows history,
    (identityMachine zeroDigest).Run Machine.always importedRows history rows ∧
      (history.filterMap Returned.physicalId?).map (·.get.toNat) = [2, 3] ∧
      (history.filterMap Returned.physicalId?).Nodup := by
  have hids : ((identityMachine zeroDigest).exec (fun _ _ => true) importedRows
      [.allocateIndexId, .allocateVectorPhysicalId, .allocateVectorPhysicalId]).map
        (fun result => (result.2.filterMap Returned.physicalId?).map (·.get.toNat)) =
      some [2, 3] := by decide +kernel
  obtain ⟨⟨rows, history⟩, hexec, hreturned⟩ := Option.map_eq_some_iff.mp hids
  have hrun : (identityMachine zeroDigest).Run Machine.always importedRows history rows :=
    Machine.run_of_exec (fun _ _ _ => trivial) hexec
  exact ⟨rows, history, hrun, hreturned, (allocated_ids_are_fresh zeroDigest hrun).1⟩

end Runs

end HelixDb.Lifecycle
