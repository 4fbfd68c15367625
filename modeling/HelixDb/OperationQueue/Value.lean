/-
  HelixDb.OperationQueue.Value

  **QUEUED OPERATIONS AND THEIR PERSISTED FORM**: the types of one queued
  vector or text operation, the writers of the queue value layout

      value   := version kind family removes inserts
      removes := count:varint operation_id{count}
      inserts := count:varint insert{count}
      insert  := mode operation_id body_len:varint body

  and the two operands a queue key receives, `QueueOperand.enqueue` and
  `QueueOperand.acknowledge`.

  Main results: the length the code computes ahead of writing is the length
  written (`putBody_length`), and an operation retains at least
  `MIN_RETAINED_RECORD_LEN` bytes.
-/
import HelixDb.Encoding.Error

namespace HelixDb.Queue

open HelixDb.Lib HelixDb.Encoding

/-! ## §1. Constants of the layout. -/

/-- The version byte. -/
def QUEUE_VALUE_VERSION : UInt8 := 0x01
/-- The kind byte. -/
def QUEUE_VALUE_KIND : UInt8 := 0x14
/-- The bytes of an operation ID. -/
def OPERATION_ID_LEN : Nat := 16
/-- The byte of an insert's mode. -/
def MODE_LEN : Nat := 1
/-- The byte of a kind or tag. -/
def KIND_LEN : Nat := 1
/-- The version, the kind and the family. -/
def HEADER_LEN : Nat := 3
/-- The bytes of a vector component. -/
def F32_LEN : Nat := 4
/-- The longest varint. -/
def MAX_VARINT_LEN : Nat := 10
/-- The longest tenant partition. -/
def MAX_PARTITION_LEN : Nat := 16 * 1024 * 1024
/-- The bit an operation ID leaves clear. -/
def OPERATION_TOKEN_BIT : BitVec 128 := 1#128 <<< 127
/-- The shortest retained record. -/
def MIN_RETAINED_RECORD_LEN : Nat := MODE_LEN + OPERATION_ID_LEN + 1 + 3
/-- The longest framing of a value. -/
def MAX_VALUE_FRAMING_LEN : Nat := HEADER_LEN + 2 * MAX_VARINT_LEN

/-- Largest per-index retained-operation ceiling whose queue values the store
can hold. -/
def MAX_RETAINED_BYTES : Nat :=
  (2 ^ 32 - 1 - MAX_VALUE_FRAMING_LEN) * MIN_RETAINED_RECORD_LEN
    / (MIN_RETAINED_RECORD_LEN + OPERATION_ID_LEN)

/-! ## §2. Queued operations. -/

/-- Unique immutable identity of one queued operation; bit 127 is clear. -/
@[ext] structure QueuedOperationId where
  get : BitVec 128
  clear : get &&& OPERATION_TOKEN_BIT = 0
deriving DecidableEq

namespace QueuedOperationId

theorem one_clear : 1 &&& OPERATION_TOKEN_BIT = 0 := by decide

/-- Identities are ordered as the numbers they hold. -/
instance : LinearOrder QueuedOperationId :=
  LinearOrder.lift' (fun id => id.get.toNat) (by
    intro a b h
    exact QueuedOperationId.ext (BitVec.eq_of_toNat_eq h))

/-- Validates a decoded identity. -/
def tryFromU128 (value : BitVec 128) : Except EncodingError QueuedOperationId :=
  if h : value &&& OPERATION_TOKEN_BIT = 0 then .ok ⟨value, h⟩
  else .error (.custom "queued operation ID uses the reserved entity-token bit")

/-- The big-endian bytes of an ID. -/
def toBeBytes (id : QueuedOperationId) : Bytes := beBytes OPERATION_ID_LEN id.get.toNat

@[simp] theorem toBeBytes_length (id : QueuedOperationId) :
    id.toBeBytes.length = OPERATION_ID_LEN :=
  beBytes_length _ _

end QueuedOperationId

/-- Index family whose payloads a queue retains. -/
inductive QueueFamily where
  | vector
  | text
deriving DecidableEq

/-- The byte of a family. -/
def QueueFamily.toU8 : QueueFamily → UInt8
  | .vector => 0x01
  | .text => 0x02

/-- The family of a byte. -/
def QueueFamily.tryFromU8 (value : UInt8) : Except EncodingError QueueFamily :=
  if value = 0x01 then .ok .vector
  else if value = 0x02 then .ok .text
  else .error (.custom s!"unknown queued operation family {hexByte value}")

/-- The kinds of indexed elements. -/
inductive IndexElementKind where
  | node
  | edge
deriving DecidableEq

/-- The byte of a kind. -/
def IndexElementKind.toU8 : IndexElementKind → UInt8
  | .node => 0x01
  | .edge => 0x02

/-- A graph node or edge. -/
structure IndexEntity where
  kind : IndexElementKind
  id : UInt64
deriving DecidableEq

/-- Normalized tenant bytes, as `TextPartition::try_tenant_value` admits them. -/
structure TenantValue where
  bytes : Bytes
  nonempty : bytes ≠ []
  bounded : bytes.length ≤ MAX_PARTITION_LEN
deriving DecidableEq

/-- Canonical text/vector partition identity. -/
inductive TextPartition where
  | unpartitioned
  | tenantValue (value : TenantValue)
deriving DecidableEq

/-- An `f32` is held as its bit pattern. -/
abbrev F32 := UInt32

/-- `f32::is_finite`: the exponent field is not all ones. -/
def f32IsFinite (x : F32) : Bool := (x >>> 23) &&& 0xFF != 0xFF

/-- Destination state of one vector operation: a non-empty finite vector. -/
structure QueuedVectorReplacement where
  partition : TextPartition
  vector : List F32
  nonempty : vector ≠ []
  finite : ∀ x ∈ vector, f32IsFinite x = true
deriving DecidableEq

/-- What an operation does to an entity's vector. -/
structure QueuedVectorPayload where
  previous : Option TextPartition
  replacement : Option QueuedVectorReplacement
deriving DecidableEq

/-- The text an operation stores, and where. -/
structure QueuedTextReplacement where
  partition : TextPartition
  text : String
deriving DecidableEq

/-- What an operation does to an entity's text. -/
structure QueuedTextPayload where
  replacement : Option QueuedTextReplacement
deriving DecidableEq

/-- Family-specific immutable payload. -/
inductive QueuedPayload where
  | vector (payload : QueuedVectorPayload)
  | text (payload : QueuedTextPayload)
deriving DecidableEq

/-- The family of a payload. -/
def QueuedPayload.family : QueuedPayload → QueueFamily
  | .vector _ => .vector
  | .text _ => .text

/-- One complete immutable queued operation. -/
structure QueuedOperation where
  id : QueuedOperationId
  entity : IndexEntity
  payload : QueuedPayload
deriving DecidableEq

/-! ## §3. Writers. -/

/-- The error values of the queue's minimal varints (a `u64` in ten bytes). -/
def queueVarint : Leb128 EncodingError where
  maxTail := MAX_VARINT_LEN - 1
  lastMax := 1
  lastMax_lt := by decide
  short := .bufferTooShort
  overflow := .custom "queued varint overflows u64"
  notMinimal := .custom "queued varint is not minimally encoded"
  tooLong := .custom "queued varint is too long"

/-- A varint. -/
def putVarint (value : Nat) : Bytes := Leb128.put (MAX_VARINT_LEN - 1) value

/-- The length of a varint. -/
def varintLen (value : Nat) : Nat := Leb128.putLen (MAX_VARINT_LEN - 1) value

@[simp] theorem putVarint_length (value : Nat) : (putVarint value).length = varintLen value :=
  Leb128.put_length _ _

theorem varintLen_pos (value : Nat) : 1 ≤ varintLen value := Leb128.putLen_pos _ _

theorem varintLen_le (value : Nat) : varintLen value ≤ MAX_VARINT_LEN := Leb128.putLen_le _ _

/-- The header of a value. -/
def putHeader (family : QueueFamily) : Bytes :=
  [QUEUE_VALUE_VERSION, QUEUE_VALUE_KIND, family.toU8]

/-- The bytes of a partition. -/
def putPartition : TextPartition → Bytes
  | .unpartitioned => [0x01]
  | .tenantValue value => 0x02 :: (putVarint value.bytes.length ++ value.bytes)

/-- The length of a partition. -/
def partitionEncodedLen : TextPartition → Nat
  | .unpartitioned => KIND_LEN
  | .tenantValue value => KIND_LEN + varintLen value.bytes.length + value.bytes.length

/-- The components, each as a big-endian `u32`. -/
def putComponents (vector : List F32) : Bytes := vector.flatMap fun x => beBytes F32_LEN x.toNat

/-- The bytes of a vector replacement. -/
def putVectorReplacement : Option QueuedVectorReplacement → Bytes
  | some replacement =>
    0x01 :: (putPartition replacement.partition ++ putVarint replacement.vector.length
      ++ putComponents replacement.vector)
  | none => [0x00]

/-- The bytes of a text replacement. -/
def putTextReplacement : Option QueuedTextReplacement → Bytes
  | some replacement =>
    0x01 :: (putPartition replacement.partition
      ++ putVarint (utf8Bytes replacement.text).length ++ utf8Bytes replacement.text)
  | none => [0x00]

/-- The bytes of the previous partition. -/
def putPrevious : Option TextPartition → Bytes
  | some partition => putPartition partition
  | none => [0x00]

/-- The bytes of a payload. -/
def putPayload : QueuedPayload → Bytes
  | .vector payload => putPrevious payload.previous ++ putVectorReplacement payload.replacement
  | .text payload => putTextReplacement payload.replacement

/-- The bytes of a record's body: the entity and the payload. -/
def putBody (operation : QueuedOperation) : Bytes :=
  operation.entity.kind.toU8 :: (putVarint operation.entity.id.toNat
    ++ putPayload operation.payload)

/-- The length of a body, as the source adds it up. -/
def bodyEncodedLen (operation : QueuedOperation) : Nat :=
  let entity := KIND_LEN + varintLen operation.entity.id.toNat
  let payload := match operation.payload with
    | .vector payload =>
      (match payload.previous with
        | some partition => partitionEncodedLen partition
        | none => KIND_LEN)
      + (match payload.replacement with
        | some replacement =>
          KIND_LEN + partitionEncodedLen replacement.partition
            + varintLen replacement.vector.length + replacement.vector.length * F32_LEN
        | none => KIND_LEN)
    | .text payload =>
      match payload.replacement with
      | some replacement =>
        KIND_LEN + partitionEncodedLen replacement.partition
          + varintLen (utf8Bytes replacement.text).length
          + (utf8Bytes replacement.text).length
      | none => KIND_LEN
  entity + payload

/-- Bytes an operation whose encoded body has `bodyLen` bytes retains in a
resolved queue: mode, identity, body length, and body. -/
def retainedLen (bodyLen : Nat) : Nat :=
  MODE_LEN + OPERATION_ID_LEN + varintLen bodyLen + bodyLen

/-- The bytes an operation retains. -/
def QueuedOperation.retainedBytes (operation : QueuedOperation) : Nat :=
  retainedLen (bodyEncodedLen operation)

/-- Whether an insert record is conditional on its ID being absent. -/
inductive InsertMode where
  | ifAbsent
  | set
deriving DecidableEq

/-- The byte of a mode. -/
def InsertMode.toU8 : InsertMode → UInt8
  | .ifAbsent => 0x01
  | .set => 0x02

/-- The record of an operation. -/
def putInsert (mode : InsertMode) (operation : QueuedOperation) : Bytes :=
  mode.toU8 :: (operation.id.toBeBytes ++ putVarint (bodyEncodedLen operation)
    ++ putBody operation)

theorem putPartition_length (partition : TextPartition) :
    (putPartition partition).length = partitionEncodedLen partition := by
  cases partition with
  | unpartitioned => rfl
  | tenantValue value =>
    simp only [putPartition, partitionEncodedLen, List.length_cons, List.length_append,
      putVarint_length, KIND_LEN]
    omega

theorem putComponents_length (vector : List F32) :
    (putComponents vector).length = vector.length * F32_LEN := by
  induction vector with
  | nil => rfl
  | cons x xs ih =>
    unfold putComponents at ih ⊢
    rw [List.flatMap_cons, List.length_append, ih, beBytes_length, List.length_cons,
      Nat.add_mul, Nat.one_mul, Nat.add_comm]

/-- **The length computed ahead is the length written.** -/
theorem putBody_length (operation : QueuedOperation) :
    (putBody operation).length = bodyEncodedLen operation := by
  obtain ⟨id, entity, payload⟩ := operation
  have hentity : ∀ rest : Bytes, (entity.kind.toU8 :: (putVarint entity.id.toNat ++ rest)).length
      = KIND_LEN + varintLen entity.id.toNat + rest.length := by
    simp only [List.length_cons, List.length_append, putVarint_length, KIND_LEN]
    omega
  simp only [putBody, hentity, bodyEncodedLen]
  cases payload with
  | vector payload =>
    obtain ⟨previous, replacement⟩ := payload
    cases previous <;> cases replacement <;>
      simp [putPayload, putPrevious, putVectorReplacement, putPartition_length,
        putComponents_length, KIND_LEN] <;> omega
  | text payload =>
    obtain ⟨replacement⟩ := payload
    cases replacement with
    | none => rfl
    | some replacement =>
      simp only [putPayload, putTextReplacement, putPartition_length, List.length_cons,
        List.length_append, putVarint_length, KIND_LEN]
      omega

/-- An entity, its ID and at least one payload byte. -/
theorem three_le_bodyEncodedLen (operation : QueuedOperation) : 3 ≤ bodyEncodedLen operation := by
  rw [← putBody_length]
  have hid := varintLen_pos operation.entity.id.toNat
  have hpayload : 1 ≤ (putPayload operation.payload).length := by
    cases operation.payload with
    | vector payload =>
      have htag : 1 ≤ (putVectorReplacement payload.replacement).length := by
        cases payload.replacement <;> simp [putVectorReplacement]
      rw [putPayload, List.length_append]
      omega
    | text payload =>
      show 1 ≤ (putTextReplacement payload.replacement).length
      cases payload.replacement <;> simp [putTextReplacement]
  simp only [putBody, List.length_cons, List.length_append, putVarint_length]
  omega

theorem min_le_retainedBytes (operation : QueuedOperation) :
    MIN_RETAINED_RECORD_LEN ≤ operation.retainedBytes := by
  have hbody := three_le_bodyEncodedLen operation
  have hlen := varintLen_pos (bodyEncodedLen operation)
  simp only [QueuedOperation.retainedBytes, retainedLen, MIN_RETAINED_RECORD_LEN]
  omega

/-! ## §4. The operands a queue key receives. -/

/-- Returns the stable per-entity enqueue-order token. -/
def entityEnqueueToken (entity : IndexEntity) : BitVec 128 :=
  OPERATION_TOKEN_BIT ||| (BitVec.ofNat 128 entity.kind.toU8.toNat <<< 64)
    ||| BitVec.ofNat 128 entity.id.toNat

/-- Blind merge operand plus the conflict tokens it must carry. -/
structure QueueOperand where
  bytes : Bytes
  tokens : List (BitVec 128)
deriving DecidableEq

/-- The loop of `QueueOperand::enqueue` over the operations still to write;
`ids` and `entities` are those already written. -/
def enqueueLoop (family : QueueFamily) :
    List QueuedOperation → List QueuedOperationId → List IndexEntity → QueueOperand →
      Except EncodingError QueueOperand
  | [], _, _, written => .ok written
  | operation :: operations, ids, entities, written =>
    if operation.payload.family ≠ family then
      .error (.custom "queue enqueue operand mixes index families")
    else if operation.id ∈ ids then
      .error (.custom "queue enqueue operand repeats an operation ID")
    else if operation.entity ∈ entities then
      .error (.custom "queue enqueue operand repeats an entity")
    else
      enqueueLoop family operations (operation.id :: ids) (operation.entity :: entities)
        { bytes := written.bytes ++ putInsert .ifAbsent operation
          tokens := written.tokens
            ++ [operation.id.get, entityEnqueueToken operation.entity] }

/-- Encodes enqueue records for one generation's queue. -/
def QueueOperand.enqueue (operations : List QueuedOperation) :
    Except EncodingError QueueOperand :=
  match operations with
  | [] => .error (.custom "queue enqueue operand requires at least one operation")
  | first :: _ =>
    let family := first.payload.family
    enqueueLoop family operations [] []
      { bytes := putHeader family ++ putVarint 0 ++ putVarint operations.length
        tokens := [] }

/-- `ids.windows(2).any(|pair| pair[0] == pair[1])`. -/
def anyAdjacentEqual (ids : List QueuedOperationId) : Bool :=
  (ids.zip ids.tail).any fun pair => pair.1 == pair.2

/-- Encodes the removal of exactly the named operation IDs. -/
def QueueOperand.acknowledge (family : QueueFamily) (ids : List QueuedOperationId) :
    Except EncodingError QueueOperand :=
  let ids := ids.insertionSort (· ≤ ·)
  if anyAdjacentEqual ids then
    .error (.custom "queue acknowledgement repeats an operation ID")
  else if ids.isEmpty then
    .error (.custom "queue acknowledgement requires at least one operation")
  else
    .ok { bytes := putHeader family ++ putVarint ids.length
            ++ ids.flatMap QueuedOperationId.toBeBytes ++ putVarint 0
          tokens := ids.map QueuedOperationId.get }

end HelixDb.Queue
