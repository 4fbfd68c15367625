/-
  HelixDb.Keys.ManagedIndex

  **KEYS OF MANAGED INDEXES**: the scoped record keys of the index lifecycle,
  of secondary, text and vector indexes and of operation queues, and the
  database-global keys beside them.

  Main result: `ScopedKey.encode_unenveloped` — no logical key starts with the
  byte that introduces a tenant envelope.
-/
import HelixDb.Keys.Data
import HelixDb.Lifecycle.Identifiers

namespace HelixDb.Keys

open HelixDb.Lib HelixDb.Lifecycle

/-- First byte of every scoped record key. -/
def DATA_PREFIX : UInt8 := 0x06

/-- `RecordKind`. -/
inductive RecordKind where
  | indexRecord
  | operation
  | buildDelta
  | appliedState
  | secondaryEntry
  | textManifestRoot
  | textManifestPage
  | textBuildArtifact
  | textEntityState
  | vectorPartitionMapping
  | textCorpusStatistics
  | textTermStatistics
  | textStatisticsEntity
  | secondaryEqualityBitmap
  | indexOperationQueue
  | indexOperationRow
deriving DecidableEq

/-- The byte of a record kind. -/
def RecordKind.asU8 : RecordKind → UInt8
  | indexRecord => 0x01
  | operation => 0x02
  | buildDelta => 0x03
  | appliedState => 0x04
  | secondaryEntry => 0x05
  | textManifestRoot => 0x06
  | textManifestPage => 0x07
  | textBuildArtifact => 0x09
  | textEntityState => 0x0C
  | vectorPartitionMapping => 0x0F
  | textCorpusStatistics => 0x10
  | textTermStatistics => 0x11
  | textStatisticsEntity => 0x12
  | secondaryEqualityBitmap => 0x13
  | indexOperationQueue => 0x14
  | indexOperationRow => 0x15

/-! ## §1. Secondary entries. -/

/-- `SecondaryEntryLane`. -/
inductive SecondaryEntryLane where
  | nodeEquality
  | nodeUniqueEquality
  | nodeRangeAscending
  | nodeRangeDescending
  | edgeEquality
  | edgeRangeAscending
  | edgeRangeDescending
deriving DecidableEq

namespace SecondaryEntryLane

/-- The byte of a lane. -/
def asU8 : SecondaryEntryLane → UInt8
  | nodeEquality => 0x01
  | nodeUniqueEquality => 0x02
  | nodeRangeAscending => 0x03
  | nodeRangeDescending => 0x04
  | edgeEquality => 0x05
  | edgeRangeAscending => 0x06
  | edgeRangeDescending => 0x07

/-- The lane of unique values. -/
def isUnique (lane : SecondaryEntryLane) : Bool := lane = nodeUniqueEquality

/-- The lanes of equality indexes. -/
def isEquality : SecondaryEntryLane → Bool
  | nodeEquality | nodeUniqueEquality | edgeEquality => true
  | _ => false

/-- The order of a range lane. -/
def rangeDirection : SecondaryEntryLane → Option RangeIndexDirection
  | nodeRangeAscending | edgeRangeAscending => some .asc
  | nodeRangeDescending | edgeRangeDescending => some .desc
  | nodeEquality | nodeUniqueEquality | edgeEquality => none

end SecondaryEntryLane

/-- `CanonicalEqualityValue`: canonical bytes and the digest stored before them. -/
structure CanonicalEqualityValue where
  digest : Vector UInt8 8
  canonical : Bytes

/-- `SecondaryEqualityEntryKey`, with the shape `try_new` requires of its lane. -/
structure SecondaryEqualityEntryKey where
  indexId : IndexId
  generation : IndexGenerationId
  lane : SecondaryEntryLane
  value : CanonicalEqualityValue
  entityId : Option UInt64
  shape : lane.isEquality ∧ lane.isUnique = entityId.isNone

/-- `SecondaryRangeEntryKey`, with the direction `try_new` requires of its lane. -/
structure SecondaryRangeEntryKey where
  indexId : IndexId
  generation : IndexGenerationId
  lane : SecondaryEntryLane
  value : CanonicalRangeValue
  entityId : UInt64
  shape : lane.rangeDirection = some value.direction

/-- `SecondaryEntryKey`. -/
inductive SecondaryEntryKey where
  | equality (key : SecondaryEqualityEntryKey)
  | range (key : SecondaryRangeEntryKey)

/-- The index and generation every generation-qualified key starts with. -/
def putGeneration (indexId : IndexId) (generation : IndexGenerationId) : Bytes :=
  putU64 indexId.get ++ putU64 generation.get

/-- A digest, the length of its canonical bytes and the bytes. -/
def CanonicalEqualityValue.put (value : CanonicalEqualityValue) : Bytes :=
  value.digest.toList ++ beBytes 4 value.canonical.length ++ value.canonical

/-- `SecondaryEntryKey::encode_suffix`. -/
def SecondaryEntryKey.encodeSuffix : SecondaryEntryKey → Bytes
  | equality key =>
    putGeneration key.indexId key.generation ++ key.lane.asU8 :: key.value.put ++
      (key.entityId.map putU64).getD []
  | range key =>
    putGeneration key.indexId key.generation ++ key.lane.asU8 :: key.value.encoded ++
      putU64 key.entityId

/-! ## §2. Scoped keys. -/

/-- A SHA-256 identity. -/
abbrev Fingerprint := Vector UInt8 32

/-- `TextManifestRootKey`, `TextCorpusStatisticsKey` and `VectorPartitionMappingKey`. -/
structure PartitionKey where
  indexId : IndexId
  generation : IndexGenerationId
  partition : Fingerprint

/-- `encode_text_root` and `encode_text_corpus_statistics`. -/
def PartitionKey.put (key : PartitionKey) : Bytes :=
  putGeneration key.indexId key.generation ++ key.partition.toList

/-- `IndexEntityStateKey` and `TextStatisticsEntityKey`. -/
structure IndexEntityStateKey where
  indexId : IndexId
  generation : IndexGenerationId
  entity : IndexEntity

/-- An entity: its kind and its ID. -/
def putEntity (entity : IndexEntity) : Bytes := entity.kind.toU8 :: putU64 entity.id

/-- `encode_entity_state_key`. -/
def IndexEntityStateKey.put (key : IndexEntityStateKey) : Bytes :=
  putGeneration key.indexId key.generation ++ putEntity key.entity

/-- `put_component`. -/
def putComponent (component : IndexComponent) : Bytes :=
  beBytes 4 (utf8Bytes component.asStr).length ++ utf8Bytes component.asStr

/-- `encode_identity`. -/
def encodeIdentity (identity : IndexIdentity) : Bytes :=
  [identity.family.toU8, identity.elementKind.toU8] ++ putComponent identity.label ++
    putComponent identity.property

/-- The bytes of an operation's UUID. -/
def putOperationId (id : IndexOperationId) : Bytes := beBytes 16 id.uuid.toNat

/-- `ScopedKey`: every legal scoped key shape. -/
inductive ScopedKey where
  | indexRecord (identity : IndexIdentity)
  | operation (operationId : IndexOperationId)
  | buildDelta (key : IndexEntityStateKey)
  | appliedState (key : IndexEntityStateKey)
  | secondaryEntry (key : SecondaryEntryKey)
  | secondaryEqualityBitmap (indexId : IndexId) (generation : IndexGenerationId)
      (elementKind : IndexElementKind) (value : CanonicalEqualityValue)
  | textManifestRoot (key : PartitionKey)
  | textManifestPage (root : PartitionKey) (page : UInt32)
  | textBuildArtifact (root : PartitionKey) (ordinal : UInt32)
  | textEntityState (root : PartitionKey) (entity : IndexEntity)
  | vectorPartitionMapping (key : PartitionKey)
  | textCorpusStatistics (key : PartitionKey)
  | textTermStatistics (corpus : PartitionKey) (term : Fingerprint)
  | textStatisticsEntity (key : IndexEntityStateKey)
  | indexOperationQueue (indexId : IndexId) (generation : IndexGenerationId)
  | indexOperationRow (indexId : IndexId) (generation : IndexGenerationId) (sequence : UInt64)

namespace ScopedKey

/-- `record_kind`. -/
def recordKind : ScopedKey → RecordKind
  | indexRecord .. => .indexRecord
  | operation .. => .operation
  | buildDelta .. => .buildDelta
  | appliedState .. => .appliedState
  | secondaryEntry .. => .secondaryEntry
  | secondaryEqualityBitmap .. => .secondaryEqualityBitmap
  | textManifestRoot .. => .textManifestRoot
  | textManifestPage .. => .textManifestPage
  | textBuildArtifact .. => .textBuildArtifact
  | textEntityState .. => .textEntityState
  | vectorPartitionMapping .. => .vectorPartitionMapping
  | textCorpusStatistics .. => .textCorpusStatistics
  | textTermStatistics .. => .textTermStatistics
  | textStatisticsEntity .. => .textStatisticsEntity
  | indexOperationQueue .. => .indexOperationQueue
  | indexOperationRow .. => .indexOperationRow

/-- The bytes after the record kind. -/
def suffix : ScopedKey → Bytes
  | indexRecord identity => encodeIdentity identity
  | operation operationId => putOperationId operationId
  | buildDelta key => key.put
  | appliedState key => key.put
  | secondaryEntry key => key.encodeSuffix
  | secondaryEqualityBitmap indexId generation elementKind value =>
    putGeneration indexId generation ++ elementKind.toU8 :: value.put
  | textManifestRoot key => key.put
  | textManifestPage root page => root.put ++ putU32 page
  | textBuildArtifact root ordinal => root.put ++ putU32 ordinal
  | textEntityState root entity => root.put ++ putEntity entity
  | vectorPartitionMapping key => key.put
  | textCorpusStatistics key => key.put
  | textTermStatistics corpus term => corpus.put ++ term.toList
  | textStatisticsEntity key => key.put
  | indexOperationQueue indexId generation => putGeneration indexId generation
  | indexOperationRow indexId generation sequence =>
    putGeneration indexId generation ++ putU64 sequence

/-- `ScopedKey::encode_into`. -/
def encode (key : ScopedKey) : Bytes := DATA_PREFIX :: key.recordKind.asU8 :: key.suffix

/-- No logical record key starts with the tenant marker. -/
theorem encode_unenveloped (key : ScopedKey) : Unenveloped key.encode :=
  .of_head (by decide) _

end ScopedKey

/-! ## §3. Global keys and physical keys. -/

/-- The place of a tenant in the keys of no tenant. -/
def GLOBAL_SENTINEL : Bytes := List.replicate 17 0xFE

/-- `TextCompactionTarget`. -/
structure TextCompactionTarget where
  scope : DataScope
  identity : IndexIdentity
  indexId : IndexId
  generation : IndexGenerationId
  partition : Fingerprint
  page : UInt32
  text : identity.family = .text

/-- `GlobalKey`. -/
inductive GlobalKey where
  | storageVersion
  | logicalIndexIdWatermark
  | vectorPhysicalIdWatermark
  | operationPointer (id : IndexOperationId)
  | legacyVectorPhysicalReservation (physicalIndexId : NonZeroId "vector physical index ID")
  | textCompactionPointer (target : TextCompactionTarget)

/-- `GlobalKey::encode_into`. -/
def GlobalKey.encode (key : GlobalKey) : Bytes :=
  GLOBAL_SENTINEL ++
    match key with
    | storageVersion => [0x01]
    | logicalIndexIdWatermark => [0x02]
    | vectorPhysicalIdWatermark => [0x03]
    | operationPointer id => 0x04 :: putOperationId id
    | legacyVectorPhysicalReservation id => 0x0A :: putU64 id.get
    | textCompactionPointer target =>
      0x0B ::
        (match target.scope with
          | .legacyUnscoped => [0x00]
          | .tenant id => 0x01 :: beBytes TENANT_ID_LEN id.asU128.toNat) ++
        encodeIdentity target.identity ++ putGeneration target.indexId target.generation ++
        target.partition.toList ++ putU32 target.page

/-- `ManagedIndexKey`: a database-global key, or one scope's record key. -/
inductive ManagedIndexKey where
  | global (kind : GlobalKey)
  | data (scope : DataScope) (kind : ScopedKey)

/-- `ManagedIndexKey::to_bytes`. -/
def ManagedIndexKey.toBytes : ManagedIndexKey → Bytes
  | global kind => kind.encode
  | data scope kind => scope.encodeKeyPrefix ++ kind.encode

end HelixDb.Keys
