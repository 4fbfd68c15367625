/-
  HelixDb.OperationQueue.Parse

  **READING ONE QUEUE VALUE**: `RawValue::parse`, which every merge runs on
  each of its inputs, and `OperationQueue::decode`, which readers run on a
  resolved value.

  `RawValue.encode` is the one layout that operands, partial merge results and
  resolved values share.
    • `parse_encode` — a well-formed value is parsed to itself,
    • `decodeUnique_eq_ok` — **a resolved value is its header and its records**.
-/
import HelixDb.Lib.FoldM
import HelixDb.OperationQueue.Cursor

namespace HelixDb.Queue

open HelixDb.Lib HelixDb.Encoding List
open Reader (bind_run_ok pure_run_ok rejectIf_run_ok ofExcept_run_ok remainingLen_run_ok finish_eq_ok)
open Reads (bind_nil rejectIf_bind bind' nil_bind ofExcept finish_eq)

/-! ## §1. Values and their layout. -/

/-- One insert record of an encoded value. -/
structure RawInsert where
  mode : InsertMode
  id : QueuedOperationId
  body : Bytes
deriving DecidableEq

/-- View over one encoded queue value. -/
structure RawValue where
  family : QueueFamily
  removes : List QueuedOperationId
  inserts : List RawInsert
deriving DecidableEq

/-- The bytes of an insert. -/
def putRawInsert (insert : RawInsert) : Bytes :=
  insert.mode.toU8 :: (insert.id.toBeBytes ++ putVarint insert.body.length ++ insert.body)

/-- The removal and insert records behind a header. -/
def RawValue.encodeRecords (value : RawValue) : Bytes :=
  putVarint value.removes.length ++ value.removes.flatMap QueuedOperationId.toBeBytes
    ++ (putVarint value.inserts.length ++ value.inserts.flatMap putRawInsert)

/-- The layout every queue value has. -/
def RawValue.encode (value : RawValue) : Bytes :=
  putHeader value.family ++ value.encodeRecords

/-- What a queue value has to satisfy to be read back.  The last three fields
are lengths the code holds as `usize`. -/
structure RawValue.WellFormed (value : RawValue) : Prop where
  removes_ascending : value.removes.Pairwise (· < ·)
  inserts_nodup : (value.inserts.map RawInsert.id).Nodup
  disjoint : ∀ insert ∈ value.inserts, insert.id ∉ value.removes
  bodies_valid : ∀ insert ∈ value.inserts, validateBody value.family insert.body = .ok ()
  removes_lt : value.removes.length < 2 ^ 64
  inserts_lt : value.inserts.length < 2 ^ 64
  bodies_lt : ∀ insert ∈ value.inserts, insert.body.length < 2 ^ 64

/-! ## §2. `RawValue::parse`. -/

/-- The mode of a byte. -/
def InsertMode.tryFromU8 (value : UInt8) : Except EncodingError InsertMode :=
  if value = 0x01 then .ok .ifAbsent
  else if value = 0x02 then .ok .set
  else .error (.custom s!"unknown queued insert mode {hexByte value}")

/-- Validates the version, kind, and family header and returns the family and
the bytes from the removal count on. -/
def parseHeader : Bytes → Except EncodingError (QueueFamily × Bytes)
  | version :: kind :: family :: rest =>
    if version ≠ QUEUE_VALUE_VERSION then
      .error (.custom s!"unsupported operation queue value version {hexByte version}")
    else if kind ≠ QUEUE_VALUE_KIND then
      .error (.unexpectedValueKind QUEUE_VALUE_KIND kind)
    else do
      let family ← QueueFamily.tryFromU8 family
      return (family, rest)
  | short => .error (.bufferTooShort HEADER_LEN short.length)

/-- Reads a count and rejects one that cannot fit in the remaining bytes. -/
def boundedCount (minimumRecordLen : Nat) : Read Nat := do
  let count ← takeUsize "queued record count overflows"
  let remaining ← Reader.remainingLen
  Reader.rejectIf (count > remaining / minimumRecordLen)
    (.bufferTooShort (min (count * minimumRecordLen) (2 ^ 64 - 1)) remaining)
  return count

/-- The removal loop; `removes` are those already read. -/
def takeRemoves : Nat → List QueuedOperationId → Read (List QueuedOperationId)
  | 0, removes => return removes
  | count + 1, removes => do
    let id ← takeOperationId
    Reader.rejectIf (∃ previous ∈ removes.getLast?, previous ≥ id)
      (.custom "queued removals are not strictly ascending")
    takeRemoves count (removes ++ [id])

/-- The insert loop; `inserts` are those already read. -/
def takeInserts (family : QueueFamily) (removes : List QueuedOperationId) :
    Nat → List RawInsert → Read (List RawInsert)
  | 0, inserts => return inserts
  | count + 1, inserts => do
    let byte ← takeU8
    let mode ← Reader.ofExcept (InsertMode.tryFromU8 byte)
    let id ← takeOperationId
    Reader.rejectIf (id ∈ removes)
      (.custom "queued value both removes and inserts one operation ID")
    Reader.rejectIf (id ∈ inserts.map RawInsert.id)
      (.custom "queued value inserts one operation ID twice")
    let bodyLen ← takeUsize "queued body length overflows"
    let body ← takeRaw bodyLen
    Reader.ofExcept (validateBody family body)
    takeInserts family removes count (inserts ++ [⟨mode, id, body⟩])

/-- The removals, and the inserts behind them. -/
def takeRecords (family : QueueFamily) : Read RawValue := do
  let removeCount ← boundedCount OPERATION_ID_LEN
  let removes ← takeRemoves removeCount []
  let insertCount ← boundedCount (MODE_LEN + OPERATION_ID_LEN + 1)
  let inserts ← takeInserts family removes insertCount []
  return ⟨family, removes, inserts⟩

/-- Parses and validates every record without resolving any other value. -/
def RawValue.parse (value : Bytes) : Except EncodingError RawValue := do
  let (family, cursor) ← parseHeader value
  Reader.finish (trailingBytes "operation queue value") (takeRecords family) cursor

/-! ## §3. A well-formed value is parsed to itself. -/

theorem InsertMode.tryFromU8_eq_ok {byte : UInt8} {mode : InsertMode} :
    InsertMode.tryFromU8 byte = .ok mode ↔ byte = mode.toU8 := by
  unfold InsertMode.tryFromU8
  constructor
  · intro h
    split_ifs at h with habsent hset <;> rwa [← Except.ok.inj h]
  · rintro rfl
    cases mode <;> rfl

theorem QueueFamily.tryFromU8_eq_ok {byte : UInt8} {family : QueueFamily} :
    QueueFamily.tryFromU8 byte = .ok family ↔ byte = family.toU8 := by
  unfold QueueFamily.tryFromU8
  constructor
  · intro h
    split_ifs at h with hvector htext <;> rwa [← Except.ok.inj h]
  · rintro rfl
    cases family <;> rfl

theorem parseHeader_eq_ok {value rest : Bytes} {family : QueueFamily} :
    parseHeader value = .ok (family, rest) ↔ value = putHeader family ++ rest := by
  constructor
  · intro h
    unfold parseHeader at h
    split at h
    next version kind byte rest' =>
      split_ifs at h with hversion hkind
      obtain ⟨found, hfound, hpure⟩ := except_bind_eq_ok.mp h
      cases hpure
      rw [QueueFamily.tryFromU8_eq_ok.mp hfound, not_not.mp hversion, not_not.mp hkind]
      rfl
    next => exact nomatch h
  · rintro rfl
    exact except_bind_eq_ok.mpr ⟨family, QueueFamily.tryFromU8_eq_ok.mpr rfl, rfl⟩

section Run

variable {s t : Bytes}

theorem boundedCount_run_ok {minimum count : Nat} :
    (boundedCount minimum).run s = .ok (count, t) ↔
      s = putVarint count ++ t ∧ count < 2 ^ 64 ∧ count ≤ t.length / minimum := by
  simp only [boundedCount, bind_run_ok, takeUsize_run_ok, remainingLen_run_ok, rejectIf_run_ok,
    pure_run_ok, not_lt]
  constructor
  · rintro ⟨_, _, ⟨rfl, hlt⟩, _, _, ⟨rfl, rfl⟩, _, _, ⟨hfits, rfl⟩, rfl, rfl⟩
    exact ⟨rfl, hlt, hfits⟩
  · rintro ⟨rfl, hlt, hfits⟩
    exact ⟨count, t, ⟨rfl, hlt⟩, t.length, t, ⟨rfl, rfl⟩, (), t, ⟨hfits, rfl⟩, rfl, rfl⟩

end Run

theorem boundedCount_reads {minimum count : Nat} (hmin : 0 < minimum) (hcount : count < 2 ^ 64) :
    Reads (boundedCount minimum) (putVarint count) count (count * minimum) := fun _ hlen =>
  boundedCount_run_ok.mpr ⟨rfl, hcount, (Nat.le_div_iff_mul_le hmin).mpr hlen⟩

theorem takeRemoves_reads (ids : List QueuedOperationId) :
    ∀ before : List QueuedOperationId, (before ++ ids).Pairwise (· < ·) →
      Reads (takeRemoves ids.length before) (ids.flatMap QueuedOperationId.toBeBytes)
        (before ++ ids) 0 := by
  induction ids with
  | nil =>
    intro before _
    rw [append_nil]
    exact Reads.pure before
  | cons id ids ih =>
    intro before hsorted
    have hbelow : ∀ x ∈ before, x < id := by
      intro x hx
      exact (pairwise_append.mp hsorted).2.2 x hx id (mem_cons_self)
    have hnext : ((before ++ [id]) ++ ids).Pairwise (· < ·) := by
      rwa [append_assoc, singleton_append]
    have hrec := ih (before ++ [id]) hnext
    rw [append_assoc] at hrec
    refine bind' (takeOperationId_reads id) (rejectIf_bind ?_ hrec)
    rintro ⟨previous, hlast, hge⟩
    exact absurd (hbelow previous (mem_of_getLast? hlast)) (not_lt.mpr hge)

theorem putRawInsert_length (insert : RawInsert) :
    (putRawInsert insert).length = retainedLen insert.body.length := by
  simp only [putRawInsert, retainedLen, length_cons, length_append, putVarint_length,
    QueuedOperationId.toBeBytes_length, MODE_LEN]
  omega

variable {family : QueueFamily}

/-- One insert record in front of what follows it. -/
theorem takeInserts_cons_reads {removes : List QueuedOperationId}
    {count : Nat} {before : List RawInsert} {insert : RawInsert} {bs : Bytes}
    {result : List RawInsert} (hremoves : insert.id ∉ removes)
    (hfresh : insert.id ∉ before.map RawInsert.id)
    (hbody : validateBody family insert.body = .ok ()) (hlen : insert.body.length < 2 ^ 64)
    (hrest : Reads (takeInserts family removes count (before ++ [insert])) bs result 0) :
    Reads (takeInserts family removes (count + 1) before) (putRawInsert insert ++ bs) result 0 := by
  obtain ⟨mode, id, body⟩ := insert
  rw [putRawInsert, cons_append, append_assoc]
  refine bind' (takeU8_reads _) ?_
  refine nil_bind (ofExcept (InsertMode.tryFromU8_eq_ok.mpr rfl)) ?_ (Nat.zero_le _)
  refine bind' (takeOperationId_reads id) ?_
  refine rejectIf_bind hremoves (rejectIf_bind hfresh ?_)
  refine bind' (takeUsize_reads hlen) (bind' (takeRaw_reads body) ?_)
  exact nil_bind (ofExcept hbody) hrest (Nat.zero_le _)

theorem takeInserts_reads {removes : List QueuedOperationId}
    (inserts : List RawInsert) (hremoves : ∀ insert ∈ inserts, insert.id ∉ removes)
    (hbody : ∀ insert ∈ inserts, validateBody family insert.body = .ok ())
    (hlen : ∀ insert ∈ inserts, insert.body.length < 2 ^ 64) :
    ∀ before : List RawInsert, ((before ++ inserts).map RawInsert.id).Nodup →
      Reads (takeInserts family removes inserts.length before) (inserts.flatMap putRawInsert)
        (before ++ inserts) 0 := by
  induction inserts with
  | nil =>
    intro before _
    rw [append_nil]
    exact Reads.pure before
  | cons insert inserts ih =>
    intro before hnodup
    have hself : insert ∈ insert :: inserts := mem_cons_self
    have hfresh : insert.id ∉ before.map RawInsert.id := by
      rw [map_append, nodup_append] at hnodup
      intro hmem
      exact hnodup.2.2 _ hmem _ (mem_map_of_mem hself) rfl
    have hassoc : (before ++ [insert]) ++ inserts = before ++ insert :: inserts := by
      rw [append_assoc, singleton_append]
    have hrec := ih (fun i hi => hremoves i (mem_cons_of_mem _ hi))
      (fun i hi => hbody i (mem_cons_of_mem _ hi))
      (fun i hi => hlen i (mem_cons_of_mem _ hi)) (before ++ [insert])
      (by rw [hassoc]; exact hnodup)
    rw [hassoc] at hrec
    exact takeInserts_cons_reads (hremoves _ hself) hfresh (hbody _ hself) (hlen _ hself) hrec

theorem flatMap_toBeBytes_length (ids : List QueuedOperationId) :
    (ids.flatMap QueuedOperationId.toBeBytes).length = ids.length * OPERATION_ID_LEN := by
  induction ids with
  | nil => simp
  | cons id ids ih =>
    rw [flatMap_cons, length_append, ih, QueuedOperationId.toBeBytes_length,
      length_cons, Nat.add_mul, Nat.one_mul, Nat.add_comm]

/-- A record is at least a mode, an identity and one length byte. -/
theorem minimum_le_flatMap_putRawInsert (inserts : List RawInsert) :
    inserts.length * (MODE_LEN + OPERATION_ID_LEN + 1)
      ≤ (inserts.flatMap putRawInsert).length := by
  induction inserts with
  | nil => simp
  | cons insert inserts ih =>
    have hpos := varintLen_pos insert.body.length
    rw [flatMap_cons, length_append, putRawInsert_length, length_cons,
      Nat.add_mul]
    unfold retainedLen
    omega

theorem takeRecords_reads {value : RawValue} (h : value.WellFormed) :
    Reads (takeRecords value.family) value.encodeRecords value 0 := by
  unfold RawValue.encodeRecords
  rw [append_assoc]
  refine Reads.bind (boundedCount_reads (by decide) h.removes_lt) ?_ (by
    rw [length_append, flatMap_toBeBytes_length]
    omega)
  refine bind' (takeRemoves_reads value.removes [] h.removes_ascending) ?_
  refine Reads.bind (boundedCount_reads (by decide) h.inserts_lt) ?_
    (minimum_le_flatMap_putRawInsert value.inserts)
  refine bind_nil (takeInserts_reads value.inserts h.disjoint h.bodies_valid h.bodies_lt []
    h.inserts_nodup) ?_ (le_refl 0)
  exact Reads.pure value

/-- **A well-formed value is parsed to itself.** -/
theorem parse_encode {value : RawValue} (h : value.WellFormed) :
    RawValue.parse value.encode = .ok value := by
  unfold RawValue.parse RawValue.encode
  rw [parseHeader_eq_ok.mpr rfl]
  exact finish_eq (takeRecords_reads h)

/-! ## §4. Reading a resolved value. -/

/-- One record of a resolved value as its operation ID and encoded body. -/
def takeRecord : Read (QueuedOperationId × Bytes) := do
  let byte ← takeU8
  let mode ← Reader.ofExcept (InsertMode.tryFromU8 byte)
  Reader.rejectIf (mode ≠ .ifAbsent)
    (.custom "resolved operation queue retains an unconditional set")
  let id ← takeOperationId
  let bodyLen ← takeUsize "queued body length overflows"
  let body ← takeRaw bodyLen
  return (id, body)

section DecodeUnique

variable {T : Type} (decode : QueuedOperationId → Bytes → Except EncodingError T)

/-- The records still to come; `ids` and `decoded` are those already read. -/
def takeUnique : Nat → List QueuedOperationId → List T → Read (List T)
  | 0, _, decoded => return decoded
  | remaining + 1, ids, decoded => do
    let record ← takeRecord
    Reader.rejectIf (record.1 ∈ ids) (.custom "queued value inserts one operation ID twice")
    let item ← Reader.ofExcept (decode record.1 record.2)
    takeUnique remaining (ids ++ [record.1]) (decoded ++ [item])

/-- The removal count, the record count and the records of a resolved value. -/
def takeResolved : Read (List T) := do
  let removals ← takeVarint
  Reader.rejectIf (removals ≠ 0) (.custom "resolved operation queue retains acknowledgements")
  let remaining ← boundedCount (MODE_LEN + OPERATION_ID_LEN + 1)
  Reader.rejectIf (remaining = 0) (.custom "resolved operation queue is empty instead of absent")
  takeUnique decode remaining [] []

end DecodeUnique

/-- Decodes each record of one resolved value, in storage order. -/
def decodeUnique {T : Type}
    (decode : QueueFamily → QueuedOperationId → Bytes → Except EncodingError T) (value : Bytes) :
    Except EncodingError (QueueFamily × List T) := do
  let (family, cursor) ← parseHeader value
  let decoded ← Reader.finish (trailingBytes "operation queue value")
    (takeResolved (decode family)) cursor
  return (family, decoded)

/-- Fully decoded resolved queue in storage commit order. -/
structure OperationQueue where
  family : QueueFamily
  operations : List QueuedOperation
deriving DecidableEq

/-- Decodes one resolved queue value read from storage. -/
def OperationQueue.decode (value : Bytes) : Except EncodingError OperationQueue := do
  let (family, operations) ← decodeUnique decodeBody value
  return ⟨family, operations⟩

/-- One record of a resolved value. -/
def putRecord (record : QueuedOperationId × Bytes) : Bytes :=
  putRawInsert ⟨.ifAbsent, record.1, record.2⟩

theorem putRecord_putBody (operation : QueuedOperation) :
    putRecord (operation.id, putBody operation) = putInsert .ifAbsent operation := by
  unfold putRecord putRawInsert putInsert
  rw [putBody_length]

section DecodeUnique

variable {s t : Bytes} {T : Type} {record : QueuedOperationId × Bytes}

theorem takeRecord_run_ok : takeRecord.run s = .ok (record, t) ↔
    s = putRecord record ++ t ∧ record.2.length < 2 ^ 64 := by
  simp only [takeRecord, bind_run_ok, takeU8_run_ok, ofExcept_run_ok, InsertMode.tryFromU8_eq_ok,
    rejectIf_run_ok, not_not, takeOperationId_run_ok, takeUsize_run_ok, takeRaw_run_ok, pure_run_ok]
  constructor
  · rintro ⟨_, _, rfl, _, _, ⟨rfl, rfl⟩, _, _, ⟨rfl, rfl⟩, id, _, rfl, _, _, ⟨rfl, hlt⟩, body, _,
      ⟨rfl, rfl⟩, rfl, rfl⟩
    exact ⟨by simp only [putRecord, putRawInsert, cons_append, append_assoc], hlt⟩
  · rintro ⟨rfl, hlt⟩
    refine ⟨_, _, ?_, .ifAbsent, _, ⟨rfl, rfl⟩, (), _, ⟨rfl, rfl⟩, record.1, _, rfl, _, _,
      ⟨rfl, hlt⟩, record.2, t, ⟨rfl, rfl⟩, rfl, rfl⟩
    simp [putRecord, putRawInsert]

/-- The record loop reads records of new IDs, each decoded to its item. -/
theorem takeUnique_run_ok {decode : QueuedOperationId → Bytes → Except EncodingError T}
    (count : Nat) : ∀ {s : Bytes} {ids : List QueuedOperationId} {decoded out : List T},
    (takeUnique decode count ids decoded).run s = .ok (out, t) ↔
      ∃ records items, records.length = count ∧ s = records.flatMap putRecord ++ t ∧
        (∀ record ∈ records, record.2.length < 2 ^ 64) ∧
        ((∀ record ∈ records, record.1 ∉ ids) ∧ (records.map Prod.fst).Nodup) ∧
        Forall₂ (fun record item => decode record.1 record.2 = .ok item) records items ∧
        out = decoded ++ items := by
  induction count with
  | zero =>
    intro s ids decoded out
    rw [takeUnique, pure_run_ok]
    constructor
    · rintro ⟨rfl, rfl⟩
      exact ⟨[], [], rfl, rfl, nofun, ⟨nofun, nodup_nil⟩, .nil, (append_nil _).symm⟩
    · rintro ⟨_, _, hcount, rfl, -, -, _ | _, rfl⟩
      · exact ⟨append_nil _, rfl⟩
      · cases hcount
  | succ count ih =>
    intro s ids decoded out
    simp only [takeUnique, bind_run_ok, takeRecord_run_ok, rejectIf_run_ok, ofExcept_run_ok, ih]
    constructor
    · rintro ⟨record, _, ⟨rfl, hlt⟩, _, _, ⟨hfresh, rfl⟩, item, _, ⟨hitem, rfl⟩, records, items,
        hcount, rfl, hlts, ⟨hids, hnodup⟩, hitems, rfl⟩
      refine ⟨record :: records, item :: items, congrArg (· + 1) hcount, ?_,
        forall_mem_cons.mpr ⟨hlt, hlts⟩, ⟨forall_mem_cons.mpr ⟨hfresh, ?_⟩, ?_⟩,
        .cons hitem hitems, append_assoc _ _ _⟩
      · rw [flatMap_cons, append_assoc]
      · exact fun other hother hmem => hids other hother (mem_append_left _ hmem)
      · refine nodup_cons.mpr ⟨fun hmem => ?_, hnodup⟩
        obtain ⟨other, hother, heq⟩ := mem_map.mp hmem
        exact hids other hother (mem_append_right _ (mem_singleton.mpr heq))
    · rintro ⟨_, _, hcount, rfl, hlts, ⟨hids, hnodup⟩, hitems, rfl⟩
      cases hitems with
      | nil => cases hcount
      | @cons record item records items hitem hitems =>
        obtain ⟨hlt, hlts⟩ := forall_mem_cons.mp hlts
        obtain ⟨hfresh, hids⟩ := forall_mem_cons.mp hids
        obtain ⟨hnew, hnodup⟩ := nodup_cons.mp hnodup
        refine ⟨record, _, ⟨by rw [flatMap_cons, append_assoc], hlt⟩, (), _, ⟨hfresh, rfl⟩, item, _,
          ⟨hitem, rfl⟩, records, items, Nat.succ.inj hcount, rfl, hlts, ⟨?_, hnodup⟩, hitems,
          (append_assoc decoded [item] items).symm⟩
        intro other hother hmem
        rcases mem_append.mp hmem with hold | hsame
        · exact hids other hother hold
        · exact hnew (mem_singleton.mp hsame ▸ mem_map_of_mem hother)

/-- **A resolved value is its header and its records**, at least one, no two of one ID. -/
theorem decodeUnique_eq_ok {value : Bytes} {items : List T}
    {decode : QueueFamily → QueuedOperationId → Bytes → Except EncodingError T} :
    decodeUnique decode value = .ok (family, items) ↔
      ∃ records, records ≠ [] ∧ records.length < 2 ^ 64 ∧
        (∀ record ∈ records, record.2.length < 2 ^ 64) ∧ (records.map Prod.fst).Nodup ∧
        value = putHeader family ++ (putVarint 0
          ++ (putVarint records.length ++ records.flatMap putRecord)) ∧
        Forall₂ (fun record item => decode family record.1 record.2 = .ok item) records items := by
  simp only [decodeUnique, takeResolved, except_bind_eq_ok, Prod.exists, parseHeader_eq_ok,
    finish_eq_ok, bind_run_ok, takeVarint_run_ok, rejectIf_run_ok, not_not, boundedCount_run_ok,
    takeUnique_run_ok]
  constructor
  · rintro ⟨_, _, rfl, _, ⟨_, _, ⟨rfl, -⟩, _, _, ⟨rfl, rfl⟩, _, _, ⟨rfl, hlt, -⟩, _, _, ⟨hne, rfl⟩,
      records, items, rfl, rfl, hlts, ⟨-, hnodup⟩, hitems, rfl⟩, hpure⟩
    cases hpure
    exact ⟨records, fun hnil => hne (hnil ▸ rfl), hlt, hlts, hnodup, by rw [append_nil], hitems⟩
  · rintro ⟨records, hne, hlt, hlts, hnodup, rfl, hitems⟩
    have hmin := minimum_le_flatMap_putRawInsert
      (records.map fun record => ⟨.ifAbsent, record.1, record.2⟩)
    rw [length_map, flatMap_map] at hmin
    exact ⟨family, _, rfl, items, ⟨0, _, ⟨rfl, by decide⟩, (), _, ⟨rfl, rfl⟩, records.length, _,
      ⟨rfl, hlt, (Nat.le_div_iff_mul_le (by decide)).mpr hmin⟩, (), _,
      ⟨fun h => hne (length_eq_zero_iff.mp h), rfl⟩, records, items, rfl, (append_nil _).symm, hlts,
      ⟨fun _ _ => not_mem_nil, hnodup⟩, hitems, rfl⟩, rfl⟩

end DecodeUnique

end HelixDb.Queue
