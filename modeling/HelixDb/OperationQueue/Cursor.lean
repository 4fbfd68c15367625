/-
  HelixDb.OperationQueue.Cursor

  **READING ONE OPERATION BODY**: the bounded cursor over queue bytes,
  `validate_body` (which merges run without allocating the payload) and
  `decode_body` (which workers run).

  Each reader that keeps what it reads is followed by its spec lemma: it accepts
  exactly what the matching writer of `HelixDb.OperationQueue.Value` wrote.

    • `decodeBody_eq_ok` — **what decodes is what was written**,
    • `decodeBody_putBody` — every body a producer writes decodes to the
      operation it was written for.

  A body is shorter than `2 ^ 64` bytes: `usize` has 64 bits.
-/
import HelixDb.OperationQueue.Value

namespace HelixDb.Queue

open HelixDb.Lib HelixDb.Encoding List
open IndexElementKind (toU8 node edge)
open Reader (bind_run_ok pure_run_ok throw_run_ok rejectIf_run_ok ofExcept_run_ok finish_eq_ok)

/-! ## §1. The cursor. -/

/-- The next `len` bytes. -/
def takeRaw (len : Nat) : Read Bytes := Reader.takeRaw .bufferTooShort len

/-- One byte. -/
def takeU8 : Read UInt8 := do
  let bytes ← takeRaw 1
  return bytes.headD 0

/-- An operation ID, without the reserved bit. -/
def takeOperationId : Read QueuedOperationId := do
  let bytes ← takeRaw OPERATION_ID_LEN
  Reader.ofExcept (QueuedOperationId.tryFromU128 (BitVec.ofNat 128 (ofBe bytes)))

/-- Reads one minimal unsigned LEB128 value. -/
def takeVarint : Read Nat := queueVarint.take

/-- A varint used as a length or a count. -/
def takeUsize (overflows : String) : Read Nat := do
  let value ← takeVarint
  usizeFromU64 overflows value

section Run

variable {s t : Bytes}

theorem takeRaw_run_ok {len : Nat} {bytes : Bytes} :
    (takeRaw len).run s = .ok (bytes, t) ↔ s = bytes ++ t ∧ bytes.length = len :=
  Reader.takeRaw_run_ok

theorem takeU8_run_ok {b : UInt8} : takeU8.run s = .ok (b, t) ↔ s = b :: t :=
  Reader.takeByte_run_ok

theorem takeOperationId_run_ok {id : QueuedOperationId} :
    takeOperationId.run s = .ok (id, t) ↔ s = id.toBeBytes ++ t := by
  simp only [takeOperationId, bind_run_ok, takeRaw_run_ok, ofExcept_run_ok]
  unfold QueuedOperationId.tryFromU128
  constructor
  · rintro ⟨bytes, _, ⟨rfl, hlen⟩, hid, rfl⟩
    have hlt : ofBe bytes < 2 ^ 128 := by
      have := ofBe_lt bytes
      rwa [hlen] at this
    split at hid
    · rw [← Except.ok.inj hid, QueuedOperationId.toBeBytes, BitVec.toNat_ofNat,
        Nat.mod_eq_of_lt hlt, ← hlen, beBytes_ofBe]
    · exact nomatch hid
  · rintro rfl
    have hlt : id.get.toNat < 256 ^ OPERATION_ID_LEN := id.get.isLt
    refine ⟨id.toBeBytes, t, ⟨rfl, id.toBeBytes_length⟩, ?_, rfl⟩
    rw [QueuedOperationId.toBeBytes, ofBe_beBytes _ _ hlt, BitVec.ofNat_toNat,
      BitVec.setWidth_eq, dif_pos id.clear]

theorem takeVarint_run_ok {value : Nat} :
    takeVarint.run s = .ok (value, t) ↔ s = putVarint value ++ t ∧ value < 2 ^ 64 :=
  queueVarint.take_run_ok

theorem takeUsize_run_ok {overflows : String} {value : Nat} :
    (takeUsize overflows).run s = .ok (value, t) ↔ s = putVarint value ++ t ∧ value < 2 ^ 64 := by
  simp only [takeUsize, usizeFromU64, bind_run_ok, takeVarint_run_ok, rejectIf_run_ok, pure_run_ok]
  constructor
  · rintro ⟨read, u, hread, _, _, ⟨-, rfl⟩, rfl, rfl⟩
    exact hread
  · rintro ⟨hs, hlt⟩
    exact ⟨value, t, ⟨hs, hlt⟩, (), t, ⟨Nat.not_le.mpr hlt, rfl⟩, rfl, rfl⟩

end Run

theorem takeRaw_reads (bytes : Bytes) : Reads (takeRaw bytes.length) bytes bytes 0 :=
  fun _ _ => takeRaw_run_ok.mpr ⟨rfl, rfl⟩

theorem takeU8_reads (b : UInt8) : Reads takeU8 [b] b 0 :=
  fun _ _ => takeU8_run_ok.mpr rfl

theorem takeOperationId_reads (id : QueuedOperationId) : Reads takeOperationId id.toBeBytes id 0 :=
  fun _ _ => takeOperationId_run_ok.mpr rfl

theorem takeVarint_reads {value : Nat} (h : value < 2 ^ 64) :
    Reads takeVarint (putVarint value) value 0 :=
  fun _ _ => takeVarint_run_ok.mpr ⟨rfl, h⟩

theorem takeUsize_reads {overflows : String} {value : Nat} (h : value < 2 ^ 64) :
    Reads (takeUsize overflows) (putVarint value) value 0 :=
  fun _ _ => takeUsize_run_ok.mpr ⟨rfl, h⟩

/-! ## §2. Partitions and components. -/

/-- The error of an option tag that is neither 0 nor 1. -/
def noncanonicalOption (tag : UInt8) : EncodingError :=
  .custom s!"noncanonical queued option tag {hexByte tag}"

/-- The error of a partition tag. -/
def unknownPartitionTag (tag : UInt8) : EncodingError :=
  .custom s!"unknown queued partition tag {hexByte tag}"

/-- Validates a partition whose tag has been read, without keeping it. -/
def skipPartitionBody (tag : UInt8) : Read Unit :=
  if tag = 0x01 then return ()
  else if tag = 0x02 then do
    let len ← takeUsize "queued partition length overflows"
    Reader.rejectIf (len = 0 ∨ len > MAX_PARTITION_LEN) (.custom
      s!"queued tenant partition length {len} is outside 1..={MAX_PARTITION_LEN}")
    let _ ← takeRaw len
    return ()
  else throw (unknownPartitionTag tag)

/-- `TextPartition::try_tenant_value`, with its error as text. -/
def TextPartition.tryTenantValue (value : Bytes) : Except EncodingError TextPartition :=
  if hempty : value = [] then
    .error (.custom "tenant partition value must not be empty")
  else if hlen : value.length ≤ MAX_PARTITION_LEN then
    .ok (.tenantValue ⟨value, hempty, hlen⟩)
  else
    .error (.custom
      s!"field tenant partition is {value.length} bytes; maximum is {MAX_PARTITION_LEN}")

/-- The partition behind its tag. -/
def takePartitionBody (tag : UInt8) : Read TextPartition :=
  if tag = 0x01 then return .unpartitioned
  else if tag = 0x02 then do
    let len ← takeUsize "queued partition length overflows"
    Reader.rejectIf (len > MAX_PARTITION_LEN) (.custom
      s!"queued tenant partition is {len} bytes; maximum is {MAX_PARTITION_LEN}")
    let value ← takeRaw len
    Reader.ofExcept (TextPartition.tryTenantValue value)
  else throw (unknownPartitionTag tag)

/-- `chunks_exact(4)`, each chunk as the `f32` with that big-endian pattern. -/
def f32Chunks : Bytes → List F32
  | a :: b :: c :: d :: rest => UInt32.ofNat (ofBe [a, b, c, d]) :: f32Chunks rest
  | _ => []

theorem f32Chunks_beBytes_append (x : F32) (rest : Bytes) :
    f32Chunks (beBytes F32_LEN x.toNat ++ rest) = x :: f32Chunks rest := by
  have hx : ofBe (beBytes 4 x.toNat) = x.toNat := ofBe_beBytes 4 _ x.toNat_lt
  simp only [F32_LEN, beBytes, cons_append, nil_append, f32Chunks] at hx ⊢
  rw [hx, UInt32.ofNat_toNat]

theorem f32Chunks_putComponents (vector : List F32) :
    f32Chunks (putComponents vector) = vector := by
  induction vector with
  | nil => rfl
  | cons x xs ih =>
    unfold putComponents at ih ⊢
    rw [flatMap_cons, f32Chunks_beBytes_append, ih]

theorem putComponents_f32Chunks (dimension : Nat) : ∀ {components : Bytes},
    components.length = dimension * F32_LEN →
    putComponents (f32Chunks components) = components ∧
      (f32Chunks components).length = dimension := by
  induction dimension with
  | zero =>
    intro components hlen
    rw [Nat.zero_mul, length_eq_zero_iff] at hlen
    rw [hlen]
    exact ⟨rfl, rfl⟩
  | succ dimension ih =>
    intro components hlen
    match components, hlen with
    | a :: b :: c :: d :: rest, hlen =>
      have hrest : rest.length = dimension * F32_LEN := by
        simp only [length_cons, F32_LEN] at hlen ⊢
        omega
      obtain ⟨hput, hcount⟩ := ih hrest
      have hlt : ofBe [a, b, c, d] < 2 ^ 32 :=
        lt_of_lt_of_eq (ofBe_lt [a, b, c, d]) (by norm_num)
      have hhead : beBytes F32_LEN (UInt32.ofNat (ofBe [a, b, c, d])).toNat = [a, b, c, d] := by
        rw [UInt32.toNat_ofNat_of_lt' hlt]
        exact beBytes_ofBe [a, b, c, d]
      constructor
      · unfold putComponents at hput ⊢
        rw [f32Chunks, flatMap_cons, hhead, hput]
        rfl
      · rw [f32Chunks, length_cons, hcount]
    | [], hlen | [_], hlen | [_, _], hlen | [_, _, _], hlen =>
      simp only [length_cons, length_nil, F32_LEN] at hlen
      omega

/-- The tag of a partition. -/
def partitionTag : TextPartition → UInt8
  | .unpartitioned => 0x01
  | .tenantValue _ => 0x02

/-- What follows the tag. -/
def partitionTail : TextPartition → Bytes
  | .unpartitioned => []
  | .tenantValue value => putVarint value.bytes.length ++ value.bytes

theorem putPartition_eq (partition : TextPartition) :
    putPartition partition = partitionTag partition :: partitionTail partition := by
  cases partition <;> rfl

theorem partitionTag_ne_zero (partition : TextPartition) : partitionTag partition ≠ 0x00 := by
  cases partition <;> simp [partitionTag]

theorem TenantValue.length_lt (value : TenantValue) : value.bytes.length < 2 ^ 64 :=
  lt_of_le_of_lt value.bounded (by decide)

section Run

variable {s t : Bytes} {partition : TextPartition}

theorem TextPartition.tryTenantValue_ok {value : Bytes} :
    TextPartition.tryTenantValue value = .ok partition ↔
      ∃ tenant : TenantValue, tenant.bytes = value ∧ partition = .tenantValue tenant := by
  unfold TextPartition.tryTenantValue
  constructor
  · intro h
    split at h
    · exact nomatch h
    · split at h
      · exact ⟨_, rfl, (Except.ok.inj h).symm⟩
      · exact nomatch h
  · rintro ⟨tenant, rfl, rfl⟩
    rw [dif_neg tenant.nonempty, dif_pos tenant.bounded]

theorem takePartitionBody_run_ok {tag : UInt8} :
    (takePartitionBody tag).run s = .ok (partition, t) ↔
      tag = partitionTag partition ∧ s = partitionTail partition ++ t := by
  unfold takePartitionBody
  split_ifs with hnone htenant
  · rw [pure_run_ok, hnone]
    cases partition <;> simp [partitionTag, partitionTail, eq_comm]
  · simp only [bind_run_ok, takeUsize_run_ok, rejectIf_run_ok, takeRaw_run_ok, ofExcept_run_ok,
      TextPartition.tryTenantValue_ok]
    constructor
    · rintro ⟨len, u, ⟨rfl, -⟩, _, _, ⟨-, rfl⟩, _, _, ⟨rfl, rfl⟩, ⟨tenant, rfl, rfl⟩, rfl⟩
      exact ⟨htenant, (append_assoc _ _ _).symm⟩
    · rintro ⟨htag, rfl⟩
      cases partition with
      | unpartitioned => exact absurd htag hnone
      | tenantValue tenant =>
        exact ⟨_, _, ⟨append_assoc _ _ _, tenant.length_lt⟩, (), _,
          ⟨Nat.not_lt.mpr tenant.bounded, rfl⟩, _, t, ⟨rfl, rfl⟩, ⟨tenant, rfl, rfl⟩, rfl⟩
  · rw [throw_run_ok]
    cases partition <;> simp [partitionTag, hnone, htenant]

end Run

/-! ## §3. `validate_body`. -/

/-- The optional previous partition of a vector operation. -/
def validatePrevious : Read Unit := do
  let tag ← takeU8
  if tag = 0x00 then return () else skipPartitionBody tag

/-- The dimension of a vector replacement, checked against the bytes that
remain. -/
def checkDimension (dimension : Nat) : Read Unit := do
  let remaining ← Reader.remainingLen
  Reader.rejectIf (dimension > remaining / F32_LEN)
    (.bufferTooShort (min (dimension * F32_LEN) (2 ^ 64 - 1)) remaining)

/-- Reads over a vector replacement. -/
def validateVectorReplacement : Read Unit := do
  let tag ← takeU8
  if tag = 0x00 then return ()
  else if tag = 0x01 then do
    let tag ← takeU8
    skipPartitionBody tag
    let dimension ← takeUsize "queued vector dimension overflows"
    Reader.rejectIf (dimension = 0) (.custom "queued vector replacement must not be empty")
    checkDimension dimension
    let components ← takeRaw (dimension * F32_LEN)
    Reader.rejectIf (∃ x ∈ f32Chunks components, f32IsFinite x = false)
      (.custom "queued vector component is not finite")
  else throw (noncanonicalOption tag)

/-- `std::str::from_utf8`. -/
def strFromUtf8 (bytes : Bytes) : Except EncodingError String :=
  match ofUtf8? bytes with
  | some text => .ok text
  | none => .error .invalidUtf8

/-- Reads over a text replacement. -/
def validateTextReplacement : Read Unit := do
  let tag ← takeU8
  if tag = 0x00 then return ()
  else if tag = 0x01 then do
    let tag ← takeU8
    skipPartitionBody tag
    let len ← takeUsize "queued text length overflows"
    let bytes ← takeRaw len
    let _ ← Reader.ofExcept (strFromUtf8 bytes)
    return ()
  else throw (noncanonicalOption tag)

/-- The error of an entity kind. -/
def unknownEntityKind (kind : UInt8) : EncodingError :=
  .custom s!"unknown queued entity kind {hexByte kind}"

/-- Reads over a record's body. -/
def readBody (family : QueueFamily) : Read Unit := do
  let kind ← takeU8
  Reader.rejectIf (kind ≠ 0x01 ∧ kind ≠ 0x02) (unknownEntityKind kind)
  let _ ← takeVarint
  match family with
  | .vector => do
    validatePrevious
    validateVectorReplacement
  | .text => validateTextReplacement

/-- The error of `Cursor::finish`. -/
def trailingBytes (context : String) (count : Nat) : EncodingError :=
  .custom s!"{context} has {count} trailing bytes"

/-- Validates one insert body without allocating its decoded payload. -/
def validateBody (family : QueueFamily) (body : Bytes) : Except EncodingError Unit :=
  Reader.finish (trailingBytes "queued operation body") (readBody family) body

/-! ## §4. `decode_body`. -/

/-- Accepts a non-empty finite vector. -/
def QueuedVectorReplacement.tryNew (partition : TextPartition) (vector : List F32) :
    Except EncodingError QueuedVectorReplacement :=
  if hne : vector = [] then
    .error (.custom "queued vector replacement must not be empty")
  else
    match hpos : vector.findIdx? fun x => !f32IsFinite x with
    | some index => .error (.custom s!"queued vector component {index} is not finite")
    | none =>
      .ok ⟨partition, vector, hne, by
        simpa only [List.findIdx?_eq_none_iff, Bool.not_eq_false'] using hpos⟩

/-- The entity of a record. -/
def takeEntity : Read IndexEntity := do
  let kind ← takeU8
  let kind ← if kind = 0x01 then pure node
    else if kind = 0x02 then pure edge
    else throw (unknownEntityKind kind)
  let id ← takeVarint
  return ⟨kind, UInt64.ofNat id⟩

/-- The partition a vector moves from. -/
def takePrevious : Read (Option TextPartition) := do
  let tag ← takeU8
  if tag = 0x00 then return none
  else do
    let partition ← takePartitionBody tag
    return some partition

/-- The vector an operation stores. -/
def takeVectorReplacement : Read (Option QueuedVectorReplacement) := do
  let tag ← takeU8
  if tag = 0x00 then return none
  else if tag = 0x01 then do
    let tag ← takeU8
    let partition ← takePartitionBody tag
    let dimension ← takeUsize "queued vector dimension overflows"
    checkDimension dimension
    let components ← takeRaw (dimension * F32_LEN)
    let replacement ← Reader.ofExcept
      (QueuedVectorReplacement.tryNew partition (f32Chunks components))
    return some replacement
  else throw (noncanonicalOption tag)

/-- The text an operation stores. -/
def takeTextReplacement : Read (Option QueuedTextReplacement) := do
  let tag ← takeU8
  if tag = 0x00 then return none
  else if tag = 0x01 then do
    let tag ← takeU8
    let partition ← takePartitionBody tag
    let len ← takeUsize "queued text length overflows"
    let bytes ← takeRaw len
    let text ← Reader.ofExcept (strFromUtf8 bytes)
    return some ⟨partition, text⟩
  else throw (noncanonicalOption tag)

/-- The payload of the queue's family. -/
def takePayload : QueueFamily → Read QueuedPayload
  | .vector => do
    let previous ← takePrevious
    let replacement ← takeVectorReplacement
    return .vector ⟨previous, replacement⟩
  | .text => do
    let replacement ← takeTextReplacement
    return .text ⟨replacement⟩

/-- Fully validates one insert body and decodes it into a typed operation. -/
def decodeBody (family : QueueFamily) (id : QueuedOperationId) (body : Bytes) :
    Except EncodingError QueuedOperation :=
  Reader.finish (trailingBytes "queued operation body") (do
    let entity ← takeEntity
    let payload ← takePayload family
    return ⟨id, entity, payload⟩) body

theorem QueuedVectorReplacement.tryNew_eq (r : QueuedVectorReplacement) :
    QueuedVectorReplacement.tryNew r.partition r.vector = .ok r := by
  have hpos : (r.vector.findIdx? fun x => !f32IsFinite x) = none := by
    simpa only [findIdx?_eq_none_iff, Bool.not_eq_false'] using r.finite
  unfold tryNew
  rw [dif_neg r.nonempty]
  split
  next index h => rw [hpos] at h; cases h
  next => rfl

section Run

variable {s t : Bytes} {partition : TextPartition}

theorem QueuedVectorReplacement.tryNew_ok {vector : List F32} :
    (∀ {r}, tryNew partition vector = .ok r → r.partition = partition ∧ r.vector = vector) ∧
      ((∃ r, tryNew partition vector = .ok r) ↔
        vector ≠ [] ∧ ¬ ∃ x ∈ vector, f32IsFinite x = false) := by
  have hinv : ∀ {r}, tryNew partition vector = .ok r →
      r.partition = partition ∧ r.vector = vector := by
    intro r h
    unfold tryNew at h
    split at h
    · exact nomatch h
    · split at h
      · exact nomatch h
      · rw [← Except.ok.inj h]
        exact ⟨rfl, rfl⟩
  refine ⟨hinv, ?_, ?_⟩
  · rintro ⟨r, h⟩
    rw [← (hinv h).2]
    refine ⟨r.nonempty, ?_⟩
    rintro ⟨x, hx, hbad⟩
    rw [r.finite x hx] at hbad
    exact nomatch hbad
  · rintro ⟨hne, hfinite⟩
    have hall : ∀ x ∈ vector, f32IsFinite x = true := by
      intro x hx
      by_contra hbad
      exact hfinite ⟨x, hx, Bool.eq_false_iff.mpr hbad⟩
    exact ⟨⟨partition, vector, hne, hall⟩, tryNew_eq ⟨partition, vector, hne, hall⟩⟩

/-- The kind byte of `take_entity`. -/
def entityKind (byte : UInt8) : Read IndexElementKind :=
  if byte = 0x01 then return .node
  else if byte = 0x02 then return .edge
  else throw (unknownEntityKind byte)

theorem takeEntity_eq : takeEntity = (do
    let byte ← takeU8
    let kind ← entityKind byte
    let id ← takeVarint
    return ⟨kind, UInt64.ofNat id⟩) := by
  unfold takeEntity entityKind
  refine congrArg (takeU8 >>= ·) (funext fun byte => ?_)
  split_ifs <;> rfl

theorem entityKind_run_ok {byte : UInt8} {kind : IndexElementKind} :
    (entityKind byte).run s = .ok (kind, t) ↔ byte = kind.toU8 ∧ t = s := by
  unfold entityKind
  split_ifs with hnode hedge
  · rw [pure_run_ok, hnode]
    cases kind <;> simp [IndexElementKind.toU8]
  · rw [pure_run_ok, hedge]
    cases kind <;> simp [IndexElementKind.toU8]
  · rw [throw_run_ok]
    cases kind <;> simp [IndexElementKind.toU8, hnode, hedge]

theorem takeEntity_run_ok {entity : IndexEntity} : takeEntity.run s = .ok (entity, t) ↔
    s = entity.kind.toU8 :: (putVarint entity.id.toNat ++ t) := by
  simp only [takeEntity_eq, bind_run_ok, takeU8_run_ok, entityKind_run_ok, takeVarint_run_ok,
    pure_run_ok]
  constructor
  · rintro ⟨byte, u, rfl, kind, _, ⟨rfl, rfl⟩, id, _, ⟨rfl, hlt⟩, rfl, rfl⟩
    rw [UInt64.toNat_ofNat_of_lt' hlt]
  · rintro rfl
    exact ⟨_, _, rfl, entity.kind, _, ⟨rfl, rfl⟩, entity.id.toNat, t, ⟨rfl, entity.id.toNat_lt⟩,
      by rw [UInt64.ofNat_toNat], rfl⟩

theorem takeEntity_reads (entity : IndexEntity) :
    Reads takeEntity (entity.kind.toU8 :: putVarint entity.id.toNat) entity 0 :=
  fun _ _ => takeEntity_run_ok.mpr rfl

theorem takePrevious_run_ok {previous : Option TextPartition} :
    takePrevious.run s = .ok (previous, t) ↔ s = putPrevious previous ++ t := by
  simp only [takePrevious, bind_run_ok, takeU8_run_ok]
  constructor
  · rintro ⟨tag, u, rfl, hrest⟩
    split at hrest
    next hnone =>
      obtain ⟨rfl, rfl⟩ := pure_run_ok.mp hrest
      rw [hnone]
      rfl
    next =>
      simp only [bind_run_ok, takePartitionBody_run_ok] at hrest
      obtain ⟨partition, _, ⟨rfl, rfl⟩, rfl, rfl⟩ := hrest
      rw [putPrevious, putPartition_eq]
      rfl
  · rintro rfl
    cases previous with
    | none => exact ⟨0x00, t, rfl, rfl⟩
    | some partition =>
      refine ⟨partitionTag partition, partitionTail partition ++ t, ?_, ?_⟩
      · rw [putPrevious, putPartition_eq]
        rfl
      · rw [if_neg (partitionTag_ne_zero partition), bind_run_ok]
        exact ⟨partition, t, takePartitionBody_run_ok.mpr ⟨rfl, rfl⟩, rfl⟩

/-- A replacement's tags and partition, in front of what its family holds. -/
theorem replacement_run_ok {β : Type} {k : TextPartition → Read (Option β)} {r : Option β} : (do
      let tag ← takeU8
      if tag = 0x00 then return none
      else if tag = 0x01 then do
        let tag ← takeU8
        let partition ← takePartitionBody tag
        k partition
      else throw (noncanonicalOption tag) : Read (Option β)).run s = .ok (r, t) ↔
    (r = none ∧ s = 0x00 :: t) ∨
      ∃ partition u, s = 0x01 :: (putPartition partition ++ u) ∧
        (k partition).run u = .ok (r, t) := by
  simp only [bind_run_ok, takeU8_run_ok, putPartition_eq]
  constructor
  · rintro ⟨tag, u, rfl, hrest⟩
    split_ifs at hrest with hnone hsome
    · obtain ⟨hr, rfl⟩ := pure_run_ok.mp hrest
      exact .inl ⟨hr, by rw [hnone]⟩
    · simp only [bind_run_ok, takeU8_run_ok, takePartitionBody_run_ok] at hrest
      obtain ⟨tag', _, rfl, partition, u', ⟨rfl, rfl⟩, hk⟩ := hrest
      exact .inr ⟨partition, u', by rw [hsome]; rfl, hk⟩
    · exact (throw_run_ok.mp hrest).elim
  · rintro (⟨rfl, rfl⟩ | ⟨partition, u, rfl, hk⟩)
    · exact ⟨0x00, t, rfl, rfl⟩
    · refine ⟨0x01, _, rfl, ?_⟩
      rw [if_neg (by decide), if_pos rfl]
      simp only [bind_run_ok, takePartitionBody_run_ok]
      exact ⟨_, _, rfl, partition, u, ⟨rfl, rfl⟩, hk⟩

theorem checkDimension_run_ok {dimension : Nat} {u : Unit} :
    (checkDimension dimension).run s = .ok (u, t) ↔ ¬ dimension > s.length / F32_LEN ∧ t = s :=
  rejectIf_run_ok

theorem takeVectorReplacement_run_ok {replacement : Option QueuedVectorReplacement} :
    takeVectorReplacement.run s = .ok (replacement, t) ↔
      s = putVectorReplacement replacement ++ t ∧ ∀ r ∈ replacement, r.vector.length < 2 ^ 64 := by
  rw [takeVectorReplacement, replacement_run_ok]
  simp only [bind_run_ok, takeUsize_run_ok, checkDimension_run_ok, takeRaw_run_ok,
    ofExcept_run_ok, pure_run_ok]
  constructor
  · rintro (⟨rfl, rfl⟩ | ⟨partition, u, rfl, dimension, _, ⟨rfl, hlt⟩, _, _, ⟨-, rfl⟩, components, _,
      ⟨rfl, hlen⟩, r, _, ⟨htry, rfl⟩, rfl, rfl⟩)
    · exact ⟨rfl, nofun⟩
    · obtain ⟨rfl, hvector⟩ := QueuedVectorReplacement.tryNew_ok.1 htry
      obtain ⟨hput, hcount⟩ := putComponents_f32Chunks dimension hlen
      rw [putVectorReplacement, hvector, hput, hcount]
      refine ⟨by simp only [cons_append, append_assoc], ?_⟩
      rintro _ ⟨rfl⟩
      rwa [hvector, hcount]
  · rintro ⟨rfl, hlt⟩
    cases replacement with
    | none => exact .inl ⟨rfl, rfl⟩
    | some r =>
      have hlen := putComponents_length r.vector
      refine .inr ⟨r.partition, putVarint r.vector.length ++ (putComponents r.vector ++ t), ?_,
        _, _, ⟨rfl, hlt r rfl⟩, (), _, ⟨?_, rfl⟩, _, t, ⟨rfl, hlen⟩, r, t, ⟨?_, rfl⟩, rfl, rfl⟩
      · simp [putVectorReplacement]
      · simp only [length_append, hlen, F32_LEN]
        omega
      · rw [f32Chunks_putComponents, r.tryNew_eq]

theorem strFromUtf8_utf8Bytes (text : String) : strFromUtf8 (utf8Bytes text) = .ok text := by
  unfold strFromUtf8
  rw [ofUtf8?_utf8Bytes]

theorem strFromUtf8_ok {bytes : Bytes} {text : String} (h : strFromUtf8 bytes = .ok text) :
    utf8Bytes text = bytes := by
  unfold strFromUtf8 at h
  split at h
  next found hfound =>
    rw [← Except.ok.inj h]
    exact utf8Bytes_of_ofUtf8? hfound
  next => exact nomatch h

theorem takeTextReplacement_run_ok {replacement : Option QueuedTextReplacement} :
    takeTextReplacement.run s = .ok (replacement, t) ↔ s = putTextReplacement replacement ++ t ∧
      ∀ r ∈ replacement, (utf8Bytes r.text).length < 2 ^ 64 := by
  rw [takeTextReplacement, replacement_run_ok]
  simp only [bind_run_ok, takeUsize_run_ok, takeRaw_run_ok, ofExcept_run_ok, pure_run_ok]
  constructor
  · rintro (⟨rfl, rfl⟩ | ⟨partition, u, rfl, _, _, ⟨rfl, hlt⟩, bytes, _, ⟨rfl, rfl⟩, text, _,
      ⟨htext, rfl⟩, rfl, rfl⟩)
    · exact ⟨rfl, nofun⟩
    · rw [← strFromUtf8_ok htext] at hlt ⊢
      refine ⟨by simp only [putTextReplacement, cons_append, append_assoc], ?_⟩
      rintro _ ⟨rfl⟩
      exact hlt
  · rintro ⟨rfl, hlt⟩
    cases replacement with
    | none => exact .inl ⟨rfl, rfl⟩
    | some r =>
      refine .inr ⟨r.partition, putVarint (utf8Bytes r.text).length ++ (utf8Bytes r.text ++ t), ?_,
        _, _, ⟨rfl, hlt r rfl⟩, _, t, ⟨rfl, rfl⟩, r.text, t, ⟨strFromUtf8_utf8Bytes r.text, rfl⟩,
        rfl, rfl⟩
      simp [putTextReplacement]

/-- The lengths a payload writes have 64 bits. -/
def QueuedPayload.Fits : QueuedPayload → Prop
  | .vector payload => ∀ r ∈ payload.replacement, r.vector.length < 2 ^ 64
  | .text payload => ∀ r ∈ payload.replacement, (utf8Bytes r.text).length < 2 ^ 64

theorem takePayload_run_ok {family : QueueFamily} {payload : QueuedPayload} :
    (takePayload family).run s = .ok (payload, t) ↔
      payload.family = family ∧ s = putPayload payload ++ t ∧ payload.Fits := by
  cases family with
  | vector =>
    simp only [takePayload, bind_run_ok, takePrevious_run_ok, takeVectorReplacement_run_ok,
      pure_run_ok]
    constructor
    · rintro ⟨previous, _, rfl, replacement, _, ⟨rfl, hlt⟩, rfl, rfl⟩
      exact ⟨rfl, (append_assoc _ _ _).symm, hlt⟩
    · rintro ⟨hfamily, rfl, hlt⟩
      cases payload with
      | vector payload =>
        exact ⟨_, _, append_assoc _ _ _, payload.replacement, t, ⟨rfl, hlt⟩, rfl, rfl⟩
      | text payload => cases hfamily
  | text =>
    simp only [takePayload, bind_run_ok, takeTextReplacement_run_ok, pure_run_ok]
    constructor
    · rintro ⟨replacement, _, ⟨rfl, hlt⟩, rfl, rfl⟩
      exact ⟨rfl, rfl, hlt⟩
    · rintro ⟨hfamily, rfl, hlt⟩
      cases payload with
      | vector payload => cases hfamily
      | text payload => exact ⟨payload.replacement, t, ⟨rfl, hlt⟩, rfl, rfl⟩

/-- **What decodes is what was written.** -/
theorem decodeBody_eq_ok {family : QueueFamily} {id : QueuedOperationId} {body : Bytes}
    {operation : QueuedOperation} : decodeBody family id body = .ok operation ↔
      operation.id = id ∧ operation.payload.family = family ∧ body = putBody operation ∧
        operation.payload.Fits := by
  simp only [decodeBody, finish_eq_ok, bind_run_ok, takeEntity_run_ok, takePayload_run_ok,
    pure_run_ok]
  constructor
  · rintro ⟨entity, _, rfl, payload, _, ⟨rfl, rfl, hfits⟩, rfl, rfl⟩
    exact ⟨rfl, rfl, by rw [append_nil]; rfl, hfits⟩
  · rintro ⟨rfl, rfl, rfl, hfits⟩
    exact ⟨operation.entity, _, rfl, operation.payload, [], ⟨rfl, by rw [append_nil], hfits⟩,
      rfl, rfl⟩

end Run

theorem QueuedPayload.fits_of_length {operation : QueuedOperation}
    (hlen : (putBody operation).length < 2 ^ 64) : operation.payload.Fits := by
  rw [putBody] at hlen
  cases hpayload : operation.payload with
  | vector payload =>
    intro r hr
    have hvector := putComponents_length r.vector
    rw [hpayload, putPayload, Option.mem_def.mp hr, putVectorReplacement] at hlen
    simp only [length_cons, length_append, F32_LEN] at hlen hvector
    omega
  | text payload =>
    intro r hr
    rw [hpayload, putPayload, Option.mem_def.mp hr, putTextReplacement] at hlen
    simp only [length_cons, length_append] at hlen
    omega

/-- **A written body decodes to the operation it was written for.** -/
theorem decodeBody_putBody (operation : QueuedOperation)
    (hlen : (putBody operation).length < 2 ^ 64) :
    decodeBody operation.payload.family operation.id (putBody operation) = .ok operation :=
  decodeBody_eq_ok.mpr ⟨rfl, rfl, rfl, QueuedPayload.fits_of_length hlen⟩

end HelixDb.Queue
