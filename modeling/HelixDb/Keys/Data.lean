/-
  HelixDb.Keys.Data

  **LOGICAL KEYS OF GRAPH DATA**: adjacency, properties, property indexes, the
  three vector keyspaces and tenant metadata, and the physical key that puts a
  scope's envelope before one of them.

  All identifiers are written big-endian.

  Main result: `DataKeyKind.encode_unenveloped` — no logical key starts with the
  byte that introduces a tenant envelope.
-/
import HelixDb.Keys.Scope
import HelixDb.Property.RangeIndexValue

namespace HelixDb.Keys

open HelixDb.Lib

export HelixDb.Property (RangeIndexDirection CanonicalRangeValue)

/-- `put_u64`, `put_u32` and `put_u16`. -/
def putU64 (n : UInt64) : Bytes := beBytes 8 n.toNat
/-- A big-endian `u32`. -/
def putU32 (n : UInt32) : Bytes := beBytes 4 n.toNat
/-- A big-endian `u16`. -/
def putU16 (n : UInt16) : Bytes := beBytes 2 n.toNat

/-! ## §1. Keys that start outside the tenant envelope. -/

/-- A key whose first byte is not the tenant marker. -/
def Unenveloped (key : Bytes) : Prop :=
  ∃ first rest, key = first :: rest ∧ first ≠ TENANT_KEY_PREFIX

theorem Unenveloped.of_head {first : UInt8} (h : first ≠ TENANT_KEY_PREFIX) (rest : Bytes) :
    Unenveloped (first :: rest) :=
  ⟨first, rest, rfl, h⟩

/-! ## §2. Property-index keys. -/

/-- `KeyPrefix`: the first byte of a key outside the vector keyspaces. -/
inductive KeyPrefix where
  | adjacency
  | edgePropertyPair
  | edgePropertyById
  | nodeProperty
  | propertyIndex
  | edgeEndpoints
  | edgePairIndex
  | metadata
deriving DecidableEq

/-- The first byte of a key. -/
def KeyPrefix.asU8 : KeyPrefix → UInt8
  | adjacency => 0x00
  | edgePropertyPair => 0x01
  | edgePropertyById => 0x01
  | nodeProperty => 0x02
  | propertyIndex => 0x03
  | edgeEndpoints => 0x04
  | edgePairIndex => 0x05
  | metadata => 0xFF

theorem KeyPrefix.asU8_ne_tenant (p : KeyPrefix) : p.asU8 ≠ TENANT_KEY_PREFIX := by
  cases p <;> decide

/-- The hash of a property name. -/
abbrev PropertyHash := Vector UInt8 4
/-- The hash of a property value. -/
abbrev ValueHash := Vector UInt8 8

/-- The end of an edge a key is for. -/
inductive EdgeDirection where
  | out
  | in_
deriving DecidableEq

/-- The byte of a direction. -/
def EdgeDirection.asU8 : EdgeDirection → UInt8
  | .out => 0x00
  | .in_ => 0x01

/-- The order of an edge range index. -/
inductive EdgeRangeIndexDirection where
  | asc
  | desc
deriving DecidableEq

/-- The byte of an order. -/
def EdgeRangeIndexDirection.asU8 : EdgeRangeIndexDirection → UInt8
  | asc => 0x03
  | desc => 0x06

/-- `IndexPrefix`: the bytes after the property-index prefix. -/
inductive IndexPrefix where
  | equality
  | range (direction : RangeIndexDirection)
  | edgeEquality
  | edgeLabel
  | edgeLabelNeighbor (direction : EdgeDirection)
  | edgeRange (direction : EdgeRangeIndexDirection) (edge : EdgeDirection)
  | globalEdgeEquality
  | globalEdgeRange (direction : RangeIndexDirection)
deriving DecidableEq

/-- The bytes that follow the property index prefix. -/
def IndexPrefix.asSlice : IndexPrefix → Bytes
  | equality => [0x00]
  | range .asc => [0x01]
  | range .desc => [0x05]
  | edgeEquality => [0x02]
  | edgeLabel => [0x04]
  | edgeLabelNeighbor direction => [0x10, direction.asU8]
  | edgeRange direction edge => [direction.asU8, edge.asU8]
  | globalEdgeEquality => [0x08]
  | globalEdgeRange .asc => [0x09]
  | globalEdgeRange .desc => [0x0A]

/-- A range value in descending order: every byte complemented, a zero followed by an
    escape byte, and a two-byte terminator. -/
def descendingValue (value : Bytes) : Bytes :=
  value.flatMap (fun byte => if byte = 0x00 then [~~~ byte, ~~~ 0xFF] else [~~~ byte]) ++
    [~~~ 0x00, ~~~ 0x01]

/-- `PropertyIndexKey`. -/
inductive PropertyIndexKey where
  | equality (propertyHash : PropertyHash) (valueHash : ValueHash)
  | edgeEquality (direction : EdgeDirection) (source : UInt64) (propertyHash : PropertyHash)
      (valueHash : ValueHash)
  | edgeLabel (labelHash : ValueHash)
  | edgeLabelNeighbor (direction : EdgeDirection) (nodeId : UInt64) (labelHash : ValueHash)
  | globalEdgeEquality (propertyHash : PropertyHash) (valueHash : ValueHash)
  | range (direction : RangeIndexDirection) (propertyHash : PropertyHash) (value : String)
      (nodeId : UInt64)
  | edgeRange (edge : EdgeDirection) (direction : EdgeRangeIndexDirection) (source : UInt64)
      (propertyHash : PropertyHash) (value : String) (edgeId : UInt64)
  | globalEdgeRange (direction : RangeIndexDirection) (propertyHash : PropertyHash)
      (value : String) (edgeId : UInt64)

/-- The value bytes of a legacy range key. -/
def rangeValueBytes (direction : RangeIndexDirection) (value : String) : Bytes :=
  match direction with
  | .asc => utf8Bytes value
  | .desc => descendingValue (utf8Bytes value)

/-- The value of an edge range key, complemented where the order descends. -/
def edgeRangeValueBytes (direction : EdgeRangeIndexDirection) (value : String) : Bytes :=
  match direction with
  | .asc => utf8Bytes value
  | .desc => descendingValue (utf8Bytes value)

/-- The bytes after the property-index prefix. -/
def PropertyIndexKey.body : PropertyIndexKey → Bytes
  | equality property value => IndexPrefix.equality.asSlice ++ property.toList ++ value.toList
  | edgeEquality direction source property value =>
    IndexPrefix.edgeEquality.asSlice ++ [direction.asU8] ++ putU64 source ++ property.toList ++
      value.toList
  | edgeLabel label => IndexPrefix.edgeLabel.asSlice ++ label.toList
  | edgeLabelNeighbor direction nodeId label =>
    (IndexPrefix.edgeLabelNeighbor direction).asSlice ++ putU64 nodeId ++ label.toList
  | globalEdgeEquality property value =>
    IndexPrefix.globalEdgeEquality.asSlice ++ property.toList ++ value.toList
  | range direction property value nodeId =>
    (IndexPrefix.range direction).asSlice ++ property.toList ++ rangeValueBytes direction value ++
      putU64 nodeId
  | edgeRange edge direction source property value edgeId =>
    (IndexPrefix.edgeRange direction edge).asSlice ++ putU64 source ++ property.toList ++
      edgeRangeValueBytes direction value ++ putU64 edgeId
  | globalEdgeRange direction property value edgeId =>
    (IndexPrefix.globalEdgeRange direction).asSlice ++ property.toList ++
      rangeValueBytes direction value ++ putU64 edgeId

/-- `PropertyIndexKey::encode_into`. -/
def PropertyIndexKey.encode (key : PropertyIndexKey) : Bytes :=
  KeyPrefix.propertyIndex.asU8 :: key.body

/-! ## §3. Vector keys. -/

/-- The key space of indexes. -/
def KEY_SPACE_INDEX : UInt8 := 0x03
/-- The index type of vectors. -/
def INDEX_TYPE_VECTOR : UInt8 := 0x03
/-- The hot vector keys. -/
def VECTOR_HOT_KEYSPACE_PREFIX : UInt8 := 0xF0
/-- The layer-0 vector keys. -/
def VECTOR_L0_KEYSPACE_PREFIX : UInt8 := 0xF1

/-- Metadata of a vector index. -/
def KEY_KIND_META : UInt8 := 0x01
/-- A vector. -/
def KEY_KIND_VECTOR : UInt8 := 0x02
/-- Entry candidates in order. -/
def KEY_KIND_ENTRY_CAND_SORTED : UInt8 := 0x04
/-- The entry candidate of a node. -/
def KEY_KIND_ENTRY_CAND_NODE : UInt8 := 0x05
/-- A transaction guard. -/
def KEY_KIND_TXN_GUARD : UInt8 := 0x09
/-- Neighbors in an upper layer. -/
def KEY_KIND_UPPER_NEIGHBORS : UInt8 := 0x11
/-- A SimHash. -/
def KEY_KIND_SIMHASH : UInt8 := 0x12
/-- A vector of an upper layer. -/
def KEY_KIND_UPPER_VECTOR : UInt8 := 0x13
/-- A reverse edge. -/
def KEY_KIND_REVERSE_EDGE : UInt8 := 0x15
/-- A layer-0 vector. -/
def KEY_KIND_LAYER0_VEC_KS : UInt8 := 0x16
/-- The SimHash directory. -/
def KEY_KIND_SIMHASH_DIRECTORY : UInt8 := 0x17

/-- `VectorStorageLane`: the keyspaces one vector index owns. -/
inductive VectorStorageLane where
  | core
  | hot
  | layer0
deriving DecidableEq

/-- The first byte of a lane's keys. -/
def VectorStorageLane.keyspace : VectorStorageLane → UInt8
  | core => KEY_SPACE_INDEX
  | hot => VECTOR_HOT_KEYSPACE_PREFIX
  | layer0 => VECTOR_L0_KEYSPACE_PREFIX

theorem VectorStorageLane.keyspace_ne_tenant (lane : VectorStorageLane) :
    lane.keyspace ≠ TENANT_KEY_PREFIX := by
  cases lane <;> decide

/-- `VectorKey`. -/
inductive VectorKey where
  | indexMetadata (indexId : UInt64)
  | indexPrefix (indexId : UInt64)
  | txnGuard (indexId : UInt64)
  | layer0Neighbors (indexId nodeId : UInt64)
  | vectorPrefix (indexId : UInt64)
  | vector (indexId orderCode nodeId : UInt64)
  | simHashDirectoryPrefix (indexId : UInt64)
  | simHashDirectory (indexId orderCode nodeId : UInt64)
  | entryCandidatePrefix (indexId : UInt64)
  | entryCandidateSorted (indexId : UInt64) (layer : UInt16) (nodeId : UInt64)
  | entryCandidateNode (indexId nodeId : UInt64)
  | memoryPrefix (indexId : UInt64)
  | l0Prefix (indexId : UInt64)
  | upperNeighbors (indexId : UInt64) (layer : UInt16) (nodeId : UInt64)
  | simHash (indexId nodeId : UInt64)
  | upperVector (indexId nodeId : UInt64)
  | reverseEdgePrefix (indexId targetNodeId : UInt64)
  | reverseEdge (indexId targetNodeId : UInt64) (layer : UInt16) (sourceNodeId : UInt64)
deriving DecidableEq

namespace VectorKey

/-- `storage_lane`. -/
def storageLane : VectorKey → VectorStorageLane
  | indexMetadata .. | indexPrefix .. | txnGuard .. => .core
  | layer0Neighbors .. | memoryPrefix .. | upperNeighbors .. | simHash .. | upperVector .. => .hot
  | vectorPrefix .. | vector .. | simHashDirectoryPrefix .. | simHashDirectory ..
  | entryCandidatePrefix .. | entryCandidateSorted .. | entryCandidateNode .. | l0Prefix ..
  | reverseEdgePrefix .. | reverseEdge .. => .layer0

/-- The bytes after the keyspace byte. -/
def body : VectorKey → Bytes
  | indexMetadata indexId => INDEX_TYPE_VECTOR :: putU64 indexId ++ [KEY_KIND_META]
  | indexPrefix indexId => INDEX_TYPE_VECTOR :: putU64 indexId
  | txnGuard indexId => INDEX_TYPE_VECTOR :: putU64 indexId ++ [KEY_KIND_TXN_GUARD]
  | layer0Neighbors indexId nodeId => putU64 indexId ++ KEY_KIND_LAYER0_VEC_KS :: putU64 nodeId
  | vectorPrefix indexId => putU64 indexId ++ [KEY_KIND_VECTOR]
  | vector indexId orderCode nodeId =>
    putU64 indexId ++ KEY_KIND_VECTOR :: putU64 orderCode ++ putU64 nodeId
  | simHashDirectoryPrefix indexId => putU64 indexId ++ [KEY_KIND_SIMHASH_DIRECTORY]
  | simHashDirectory indexId orderCode nodeId =>
    putU64 indexId ++ KEY_KIND_SIMHASH_DIRECTORY :: putU64 orderCode ++ putU64 nodeId
  | entryCandidatePrefix indexId => putU64 indexId ++ [KEY_KIND_ENTRY_CAND_SORTED]
  | entryCandidateSorted indexId layer nodeId =>
    -- the layer is inverted, so that higher layers sort first
    putU64 indexId ++ KEY_KIND_ENTRY_CAND_SORTED :: putU16 (0xFFFF - layer) ++ putU64 nodeId
  | entryCandidateNode indexId nodeId =>
    putU64 indexId ++ KEY_KIND_ENTRY_CAND_NODE :: putU64 nodeId
  | memoryPrefix indexId => putU64 indexId
  | l0Prefix indexId => putU64 indexId
  | upperNeighbors indexId layer nodeId =>
    putU64 indexId ++ KEY_KIND_UPPER_NEIGHBORS :: putU16 layer ++ putU64 nodeId
  | simHash indexId nodeId => putU64 indexId ++ KEY_KIND_SIMHASH :: putU64 nodeId
  | upperVector indexId nodeId => putU64 indexId ++ KEY_KIND_UPPER_VECTOR :: putU64 nodeId
  | reverseEdgePrefix indexId target => putU64 indexId ++ KEY_KIND_REVERSE_EDGE :: putU64 target
  | reverseEdge indexId target layer source =>
    putU64 indexId ++ KEY_KIND_REVERSE_EDGE :: putU64 target ++ putU16 layer ++ putU64 source

/-- `VectorKey::encode_into`. -/
def encode (key : VectorKey) : Bytes := key.storageLane.keyspace :: key.body

end VectorKey

/-! ## §4. Data keys. -/

/-- `DataKeyKind`: the logical key shapes of tenant-owned data. -/
inductive DataKeyKind where
  | adjacency (nodeId : UInt64)
  | edgePropertyPair (source target : UInt64)
  | edgePropertyById (edgeId : UInt64)
  | nodeProperty (nodeId : UInt64)
  | propertyIndex (key : PropertyIndexKey)
  | edgeEndpoints (edgeId : UInt64)
  | edgePairIndex (source target : UInt64)
  | vector (key : VectorKey)
  | indexMetadata (name : Bytes)

/-- `DataKeyKind::encode_into`. -/
def DataKeyKind.encode : DataKeyKind → Bytes
  | adjacency nodeId => KeyPrefix.adjacency.asU8 :: putU64 nodeId
  | edgePropertyPair source target =>
    KeyPrefix.edgePropertyPair.asU8 :: putU64 source ++ putU64 target
  | edgePropertyById edgeId => KeyPrefix.edgePropertyById.asU8 :: putU64 edgeId
  | nodeProperty nodeId => KeyPrefix.nodeProperty.asU8 :: putU64 nodeId
  | propertyIndex key => key.encode
  | edgeEndpoints edgeId => KeyPrefix.edgeEndpoints.asU8 :: putU64 edgeId
  | edgePairIndex source target => KeyPrefix.edgePairIndex.asU8 :: putU64 source ++ putU64 target
  | vector key => key.encode
  | indexMetadata name => KeyPrefix.metadata.asU8 :: name

/-- No logical data key starts with the tenant marker. -/
theorem DataKeyKind.encode_unenveloped (kind : DataKeyKind) : Unenveloped kind.encode := by
  cases kind with
  | vector key => exact .of_head key.storageLane.keyspace_ne_tenant _
  | propertyIndex key => exact .of_head (KeyPrefix.asU8_ne_tenant .propertyIndex) _
  | adjacency | edgePropertyPair | edgePropertyById | nodeProperty | edgeEndpoints
  | edgePairIndex | indexMetadata => exact .of_head (KeyPrefix.asU8_ne_tenant _) _

/-- `DataKey`: a database-wide metadata key, or one scope's data key. -/
inductive DataKey where
  | global (name : Bytes)
  | data (scope : DataScope) (kind : DataKeyKind)

/-- `DataKey::to_bytes`. -/
def DataKey.toBytes : DataKey → Bytes
  | global name => KeyPrefix.metadata.asU8 :: name
  | data scope kind => scope.encodeKeyPrefix ++ kind.encode

end HelixDb.Keys
