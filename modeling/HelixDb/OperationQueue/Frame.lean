/-
  HelixDb.OperationQueue.Frame

  **FRAMES AND FULL DECODING ACCEPT THE SAME BYTES**: `OperationFrame`, which
  startup accounting reads, against `OperationQueue::decode` and
  `QueueRow::decode`.

  Frames walk a body with `validate_body`, operations are read by
  `decode_body`.  The two walkers are compared reader by reader
  (`Reader.Skims`).

    • `validateBody_iff` — **one body is valid exactly when it decodes**,
    • `frames_iff_operations` — so is one value.
-/
import HelixDb.Lib.FoldM
import HelixDb.OperationQueue.Parse

namespace HelixDb.Queue

open HelixDb.Lib HelixDb.Encoding Reader List
open OperationQueue (decode)

/-! ## §1. `validate_body` accepts where `decode_body` does. -/

variable {s t : Bytes} {id : QueuedOperationId} {value : Bytes}

theorem skipPartitionBody_skims (tag : UInt8) :
    Skims (skipPartitionBody tag) (takePartitionBody tag) := by
  refine .ite (.pure _) (.ite (.bind fun len => ?_) (.throw _))
  -- the skimming reader tests the length, the other one the bytes taken
  intro s t
  simp only [bind_run_ok, rejectIf_run_ok, pure_run_ok,
    ofExcept_run_ok, TextPartition.tryTenantValue_ok]
  constructor
  · rintro ⟨_, u, ⟨hlen, rfl⟩, value, u', hraw, -, rfl⟩
    obtain ⟨-, hvalue⟩ := takeRaw_run_ok.mp hraw
    have hne : value ≠ [] := fun h => hlen (.inl (by rw [← hvalue, h]; rfl))
    have hle : value.length ≤ MAX_PARTITION_LEN := by omega
    exact ⟨_, (), u, ⟨fun h => hlen (.inr h), rfl⟩, value, t, hraw, ⟨⟨value, hne, hle⟩, rfl, rfl⟩, rfl⟩
  · rintro ⟨partition, _, u, ⟨hlen, rfl⟩, value, u', hraw, ⟨tenant, rfl, -⟩, rfl⟩
    obtain ⟨-, hvalue⟩ := takeRaw_run_ok.mp hraw
    have hne : ¬ len = 0 := by
      intro h
      exact tenant.nonempty (length_eq_zero_iff.mp (hvalue.trans h))
    exact ⟨(), u, ⟨by omega, rfl⟩, tenant.bytes, t, hraw, trivial, rfl⟩

theorem validatePrevious_skims : Skims validatePrevious takePrevious :=
  .bind fun tag => .ite (.pure _) ((skipPartitionBody_skims tag).map some)

theorem validateVectorReplacement_skims :
    Skims validateVectorReplacement takeVectorReplacement := by
  refine .bind fun tag => .ite (.pure _) (.ite (.bind fun tag => ?_) (.throw _))
  refine .seq (skipPartitionBody_skims tag) fun partition => .bind fun dimension => ?_
  intro s t
  simp only [bind_run_ok, rejectIf_run_ok, pure_run_ok, checkDimension_run_ok,
    ofExcept_run_ok]
  have hvector : ∀ components : Bytes, components.length = dimension * F32_LEN →
      ((∃ r, QueuedVectorReplacement.tryNew partition (f32Chunks components) = .ok r) ↔
        ¬ dimension = 0 ∧ ¬ ∃ x ∈ f32Chunks components, f32IsFinite x = false) := by
    intro components hlen
    rw [QueuedVectorReplacement.tryNew_ok.2, ← (putComponents_f32Chunks dimension hlen).2,
      length_eq_zero_iff]
  constructor
  · rintro ⟨_, _, ⟨hne, rfl⟩, _, _, ⟨hfits, rfl⟩, components, u, hraw, hfinite, rfl⟩
    obtain ⟨r, hr⟩ := (hvector components (takeRaw_run_ok.mp hraw).2).mpr ⟨hne, hfinite⟩
    exact ⟨some r, (), _, ⟨hfits, rfl⟩, components, t, hraw, r, t, ⟨hr, rfl⟩, rfl, rfl⟩
  · rintro ⟨_, _, _, ⟨hfits, rfl⟩, components, u, hraw, r, _, ⟨hr, rfl⟩, -, rfl⟩
    obtain ⟨hne, hfinite⟩ := (hvector components (takeRaw_run_ok.mp hraw).2).mp ⟨r, hr⟩
    exact ⟨(), _, ⟨hne, rfl⟩, (), _, ⟨hfits, rfl⟩, components, t, hraw, hfinite, rfl⟩

theorem validateTextReplacement_skims : Skims validateTextReplacement takeTextReplacement := by
  refine .bind fun tag => .ite (.pure _) (.ite (.bind fun tag => ?_) (.throw _))
  refine .seq (skipPartitionBody_skims tag) fun partition => ?_
  exact .bind fun len => .bind fun bytes => .bind fun text => .pure _

theorem validKind (kind : IndexElementKind) : ¬ (kind.toU8 ≠ 0x01 ∧ kind.toU8 ≠ 0x02) := by
  cases kind <;> simp [IndexElementKind.toU8]

/-- The entity in front of a payload. -/
theorem entity_skims : Skims (do
      let kind ← takeU8
      rejectIf (kind ≠ 0x01 ∧ kind ≠ 0x02) (unknownEntityKind kind)
      let _ ← takeVarint
      return ()) takeEntity := by
  rw [takeEntity_eq]
  refine .bind fun byte => .seq ?_ fun _ => .bind fun id => .pure _
  intro s t
  simp only [rejectIf_run_ok, entityKind_run_ok]
  constructor
  · rintro ⟨hknown, ht⟩
    by_cases hnode : byte = 0x01
    · exact ⟨.node, hnode, ht⟩
    · exact ⟨.edge, by_contra fun hedge => hknown ⟨hnode, hedge⟩, ht⟩
  · rintro ⟨kind, hbyte, ht⟩
    rw [hbyte]
    exact ⟨validKind kind, ht⟩

variable {operation : QueuedOperation}

/-- **One body is valid exactly when it decodes.** -/
theorem validateBody_iff (family : QueueFamily) (id : QueuedOperationId) (body : Bytes) :
    validateBody family body = .ok () ↔ ∃ operation, decodeBody family id body = .ok operation := by
  have hskims : Skims (readBody family) (do
      let entity ← takeEntity
      let payload ← takePayload family
      return (⟨id, entity, payload⟩ : QueuedOperation)) := by
    have hread : ∀ rest : Read Unit, (do
        let kind ← takeU8
        rejectIf (kind ≠ 0x01 ∧ kind ≠ 0x02) (unknownEntityKind kind)
        let _ ← takeVarint
        rest) = (do
          let kind ← takeU8
          rejectIf (kind ≠ 0x01 ∧ kind ≠ 0x02) (unknownEntityKind kind)
          let _ ← takeVarint
          return ()) >>= fun _ => rest := by
      simp
    unfold readBody
    rw [hread]
    refine .seq entity_skims fun entity => .map ?_ _
    cases family with
    | vector =>
      exact .seq validatePrevious_skims fun _ => validateVectorReplacement_skims.map _
    | text => exact validateTextReplacement_skims.map _
  unfold validateBody decodeBody
  simp only [finish_eq_ok]
  exact hskims body []

variable {family : QueueFamily}

/-! ## §2. Frames. -/

/-- One outstanding operation as startup accounting reads it: its identity,
entity, and exact retained bytes, without its payload. -/
structure OperationFrame where
  id : QueuedOperationId
  entity : IndexEntity
  retainedBytes : Nat
deriving DecidableEq

/-- Validates one encoded body in place and frames it. -/
def OperationFrame.validate (family : QueueFamily) (id : QueuedOperationId) (body : Bytes) :
    Except EncodingError OperationFrame := do
  validateBody family body
  let (entity, _) ← takeEntity.run body
  return ⟨id, entity, retainedLen body.length⟩

/-- Reads every operation's frame from one resolved queue value. -/
def OperationFrame.decodeQueue (value : Bytes) :
    Except EncodingError (QueueFamily × List OperationFrame) :=
  decodeUnique OperationFrame.validate value

/-- Row value kind mirrors the key's `RecordKind::IndexOperationRow` byte. -/
def ROW_VALUE_KIND : UInt8 := 0x15

/-- Encodes one operation as a complete row value. -/
def QueueRow.encode (family : QueueFamily) (operation : QueuedOperation) : Bytes :=
  QUEUE_VALUE_VERSION :: ROW_VALUE_KIND :: family.toU8
    :: (operation.id.toBeBytes ++ putBody operation)

/-- The cursor steps of `QueueRow::split`. -/
def takeRow : Read (QueueFamily × QueuedOperationId × Bytes) := do
  let version ← takeU8
  Reader.rejectIf (version ≠ QUEUE_VALUE_VERSION)
    (.custom "unsupported queued operation row version")
  let kind ← takeU8
  Reader.rejectIf (kind ≠ ROW_VALUE_KIND) (.custom "queued operation row has another value kind")
  let byte ← takeU8
  let family ← Reader.ofExcept (QueueFamily.tryFromU8 byte)
  let id ← takeOperationId
  let remaining ← Reader.remainingLen
  let body ← takeRaw remaining
  return (family, id, body)

/-- Validates one row value's header and operation ID and returns them with the
still-encoded body. -/
def QueueRow.split (value : Bytes) :
    Except EncodingError (QueueFamily × QueuedOperationId × Bytes) := do
  let (row, _) ← takeRow.run value
  return row

/-- Fully validates and decodes one row value. -/
def QueueRow.decode (value : Bytes) : Except EncodingError (QueueFamily × QueuedOperation) := do
  let (family, id, body) ← QueueRow.split value
  let operation ← decodeBody family id body
  return (family, operation)

/-- Reads one row-layout value's frame. -/
def OperationFrame.decodeRow (value : Bytes) :
    Except EncodingError (QueueFamily × OperationFrame) := do
  let (family, id, body) ← QueueRow.split value
  let frame ← OperationFrame.validate family id body
  return (family, frame)

/-- What a frame keeps of an operation. -/
def QueuedOperation.frame (operation : QueuedOperation) : OperationFrame :=
  ⟨operation.id, operation.entity, operation.retainedBytes⟩

/-- The resolved layout of a queue, written record by record. -/
def OperationQueue.encode (queue : OperationQueue) : Bytes :=
  putHeader queue.family ++ putVarint 0 ++ putVarint queue.operations.length
    ++ queue.operations.flatMap (putInsert .ifAbsent)

theorem takeEntity_putBody (operation : QueuedOperation) :
    takeEntity.run (putBody operation) = .ok (operation.entity, putPayload operation.payload) :=
  takeEntity_reads operation.entity (putPayload operation.payload) (Nat.zero_le _)

/-- A frame is read exactly where the operation it frames is. -/
theorem OperationFrame.validate_iff (family : QueueFamily) (id : QueuedOperationId) (body : Bytes)
    (frame : OperationFrame) :
    OperationFrame.validate family id body = .ok frame ↔
      ∃ operation, decodeBody family id body = .ok operation ∧ frame = operation.frame := by
  have hframe : ∀ operation, decodeBody family id body = .ok operation →
      OperationFrame.validate family id body = .ok operation.frame := by
    intro operation hdecode
    obtain ⟨hid, -, hbody, -⟩ := decodeBody_eq_ok.mp hdecode
    have hvalid := (validateBody_iff family id body).mpr ⟨operation, hdecode⟩
    unfold OperationFrame.validate
    rw [hvalid]
    show (do
      let (entity, _) ← takeEntity.run body
      return (⟨id, entity, retainedLen body.length⟩ : OperationFrame)) = _
    rw [hbody, takeEntity_putBody, putBody_length, ← hid]
    rfl
  constructor
  · intro h
    obtain ⟨_, hvalid, -⟩ := except_bind_eq_ok.mp h
    obtain ⟨operation, hdecode⟩ := (validateBody_iff family id body).mp hvalid
    exact ⟨operation, hdecode, Except.ok.inj (h.symm.trans (hframe operation hdecode))⟩
  · rintro ⟨operation, hdecode, rfl⟩
    exact hframe operation hdecode

theorem QueueRow.split_ok {value body : Bytes}
    (h : QueueRow.split value = .ok (family, id, body)) :
    value = QUEUE_VALUE_VERSION :: ROW_VALUE_KIND :: family.toU8 :: (id.toBeBytes ++ body) := by
  obtain ⟨⟨row, rest⟩, hrun, hpure⟩ := except_bind_eq_ok.mp h
  cases hpure
  simp only [takeRow, bind_run_ok, takeU8_run_ok, rejectIf_run_ok, ofExcept_run_ok,
    takeOperationId_run_ok] at hrun
  obtain ⟨version, _, rfl, _, _, ⟨hversion, rfl⟩, kind, _, rfl, _, _, ⟨hkind, rfl⟩, byte, _, rfl,
    found, _, ⟨hfamily, rfl⟩, found', u, rfl, remaining, _, hremaining, hrun⟩ := hrun
  cases hremaining
  simp only [takeRaw_run_ok, pure_run_ok] at hrun
  obtain ⟨taken, u', ⟨hu, hlen⟩, hrow, -⟩ := hrun
  -- the last take leaves nothing: it asks for all that remains
  have hnil : u' = [] := by
    have hlens := congrArg List.length hu
    rw [length_append] at hlens
    exact length_eq_zero_iff.mp (by omega)
  cases hrow
  rw [hu, hnil, append_nil, QueueFamily.tryFromU8_eq_ok.mp hfamily, not_not.mp hversion,
    not_not.mp hkind]

/-- A row is split before its body is read. -/
theorem row_eq_ok {T : Type} {x : T}
    {read : QueueFamily → QueuedOperationId → Bytes → Except EncodingError T} :
    (do
      let (family, id, body) ← QueueRow.split value
      let x ← read family id body
      return (family, x)) = .ok (family, x) ↔
      ∃ id body, QueueRow.split value = .ok (family, id, body) ∧ read family id body = .ok x := by
  constructor
  · intro h
    obtain ⟨⟨found, id, body⟩, hsplit, h⟩ := except_bind_eq_ok.mp h
    obtain ⟨y, hread, hpure⟩ := except_bind_eq_ok.mp h
    cases hpure
    exact ⟨id, body, hsplit, hread⟩
  · rintro ⟨id, body, hsplit, hread⟩
    refine except_bind_eq_ok.mpr ⟨(family, id, body), hsplit, ?_⟩
    exact except_bind_eq_ok.mpr ⟨x, hread, rfl⟩

theorem OperationQueue.decode_eq_ok {queue : OperationQueue} :
    decode value = .ok queue ↔
      decodeUnique decodeBody value = .ok (queue.family, queue.operations) := by
  constructor
  · intro h
    obtain ⟨⟨family, operations⟩, hdecode, hpure⟩ := except_bind_eq_ok.mp h
    cases hpure
    exact hdecode
  · intro h
    exact except_bind_eq_ok.mpr ⟨_, h, rfl⟩

/-- The records of a queue that decodes are its operations, written out. -/
theorem records_eq_of_decode {records : List (QueuedOperationId × Bytes)}
    {operations : List QueuedOperation}
    (h : List.Forall₂ (fun record operation => decodeBody family record.1 record.2 = .ok operation)
      records operations) :
    records = operations.map fun operation => (operation.id, putBody operation) := by
  induction h with
  | nil => rfl
  | cons hdecode _ ih =>
    obtain ⟨hid, -, hbody, -⟩ := decodeBody_eq_ok.mp hdecode
    rw [ih, map_cons, hid, ← hbody]

/-- A decoder that accepts where another one does reads the same records. -/
theorem forall₂_frames {records : List (QueuedOperationId × Bytes)}
    {frames : List OperationFrame} :
    Forall₂ (fun record frame => OperationFrame.validate family record.1 record.2 = .ok frame)
        records frames ↔
      ∃ operations, Forall₂ (fun record operation =>
        decodeBody family record.1 record.2 = .ok operation) records operations ∧
          frames = operations.map QueuedOperation.frame := by
  constructor
  · intro h
    induction h with
    | nil => exact ⟨[], .nil, rfl⟩
    | cons hframe _ ih =>
      obtain ⟨operation, hdecode, rfl⟩ := (OperationFrame.validate_iff _ _ _ _).mp hframe
      obtain ⟨operations, hdecodes, rfl⟩ := ih
      exact ⟨operation :: operations, .cons hdecode hdecodes, rfl⟩
  · rintro ⟨operations, h, rfl⟩
    rw [forall₂_map_right_iff]
    exact h.imp fun _ operation hdecode =>
      (OperationFrame.validate_iff _ _ _ _).mpr ⟨operation, hdecode, rfl⟩

/-- Frames of a queue value. -/
theorem decodeQueue_iff (value : Bytes) (family : QueueFamily) (frames : List OperationFrame) :
    OperationFrame.decodeQueue value = .ok (family, frames) ↔
      ∃ operations, decode value = .ok ⟨family, operations⟩ ∧
        frames = operations.map QueuedOperation.frame := by
  simp only [OperationFrame.decodeQueue, OperationQueue.decode_eq_ok, decodeUnique_eq_ok,
    forall₂_frames]
  constructor
  · rintro ⟨records, hne, hlt, hlts, hnodup, hvalue, operations, hitems, hframes⟩
    exact ⟨operations, ⟨records, hne, hlt, hlts, hnodup, hvalue, hitems⟩, hframes⟩
  · rintro ⟨operations, ⟨records, hne, hlt, hlts, hnodup, hvalue, hitems⟩, hframes⟩
    exact ⟨records, hne, hlt, hlts, hnodup, hvalue, operations, hitems, hframes⟩

/-- A queue that decodes is written back byte for byte. -/
theorem OperationQueue.encode_of_decode {queue : OperationQueue}
    (h : decode value = .ok queue) : queue.encode = value := by
  obtain ⟨records, -, -, -, -, hvalue, hitems⟩ :=
    decodeUnique_eq_ok.mp (OperationQueue.decode_eq_ok.mp h)
  have hwritten : records.flatMap putRecord = queue.operations.flatMap (putInsert .ifAbsent) := by
    rw [records_eq_of_decode hitems, flatMap_map]
    simp [putRecord_putBody]
  have hcount : records.length = queue.operations.length := hitems.length_eq
  rw [hvalue, hwritten, hcount]
  unfold OperationQueue.encode
  simp

/-- A row that decodes is written back byte for byte. -/
theorem QueueRow.encode_of_decode (h : QueueRow.decode value = .ok (family, operation)) :
    QueueRow.encode family operation = value := by
  obtain ⟨id, body, hsplit, hdecode⟩ := row_eq_ok.mp h
  obtain ⟨hid, -, hbody, -⟩ := decodeBody_eq_ok.mp hdecode
  rw [QueueRow.split_ok hsplit, ← hid, hbody]
  rfl

/-- **Frames and full decoding accept the same bytes** and list the same
operations in the same order, in both layouts; and what the full decoder accepts
is reproduced by writing its operations again. -/
theorem frames_iff_operations (value : Bytes) :
    (∀ family frames, OperationFrame.decodeQueue value = .ok (family, frames) ↔
      ∃ operations, decode value = .ok ⟨family, operations⟩ ∧
        frames = operations.map fun operation =>
          ⟨operation.id, operation.entity, operation.retainedBytes⟩) ∧
    (∀ family frame, OperationFrame.decodeRow value = .ok (family, frame) ↔
      ∃ operation, QueueRow.decode value = .ok (family, operation) ∧
        frame = ⟨operation.id, operation.entity, operation.retainedBytes⟩) ∧
    (∀ queue, decode value = .ok queue → queue.encode = value) ∧
    (∀ family operation, QueueRow.decode value = .ok (family, operation) →
      QueueRow.encode family operation = value) := by
  refine ⟨decodeQueue_iff value, fun family frame => ?_,
    fun _ => OperationQueue.encode_of_decode, fun _ _ => QueueRow.encode_of_decode⟩
  refine row_eq_ok.trans ?_
  simp only [QueueRow.decode, row_eq_ok, OperationFrame.validate_iff]
  constructor
  · rintro ⟨id, body, hsplit, operation, hdecode, hframe⟩
    exact ⟨operation, ⟨id, body, hsplit, hdecode⟩, hframe⟩
  · rintro ⟨operation, ⟨id, body, hsplit, hdecode⟩, hframe⟩
    exact ⟨id, body, hsplit, operation, hdecode, hframe⟩

/-- The text deletion of node 7, queued under the identity 5. -/
def nodeSevenDeletion : QueuedOperation :=
  ⟨⟨5#128, by decide⟩, ⟨.node, 7⟩, .text ⟨none⟩⟩

/-- A queue of one deletion: its frame charges the smallest record. -/
theorem frames_of_nodeSevenDeletion :
    OperationFrame.decodeQueue (OperationQueue.encode ⟨.text, [nodeSevenDeletion]⟩)
      = .ok (.text, [⟨⟨5#128, by decide⟩, ⟨.node, 7⟩, MIN_RETAINED_RECORD_LEN⟩]) :=
  ((frames_iff_operations _).1 .text _).mpr
    ⟨[nodeSevenDeletion], by decide +kernel, by decide +kernel⟩

end HelixDb.Queue
