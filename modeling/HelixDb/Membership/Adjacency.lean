/-
  HelixDb.Membership.Adjacency

  **ADJACENCY ROWS**: `Edges`, its stored form, and `AdjacencyMembershipDelta`.

  A row keeps the outgoing and the incoming neighbours of a node.  A delta has
  one bitmap delta a direction and may first clear the outgoing side.

    • `AdjacencyMembershipDelta.applyTo_compose` — composing is applying
      one after the other,
    • `AdjacencyMembershipDelta.decodeIfDelta_encode` — every frame written is
      read back,
    • `decodeEdges_encodeEdges` — so is every stored row.
-/
import HelixDb.Membership.BitmapDelta

namespace HelixDb.Membership

open HelixDb.Lib HelixDb.Encoding Reader List

/-! ## §1. Rows and deltas. -/

/-- Adjacency list for a node. -/
@[ext]
structure Edges where
  nxtsOut : Finset UInt64
  nxtsIn : Finset UInt64
deriving DecidableEq

namespace Edges

/-- No neighbor. -/
def new : Edges := ⟨∅, ∅⟩

/-- A node without neighbors. -/
def isEmpty (edges : Edges) : Bool := decide (edges.nxtsOut = ∅) && decide (edges.nxtsIn = ∅)

end Edges

/-- Last-write-wins membership changes for one adjacency row. -/
structure AdjacencyMembershipDelta where
  resetOut : Bool
  outgoing : BitmapMembershipDelta
  incoming : BitmapMembershipDelta
deriving DecidableEq

variable {delta : AdjacencyMembershipDelta} {bytes : Bytes}

namespace AdjacencyMembershipDelta

/-- The delta without changes, `AdjacencyMembershipDelta::default()`. -/
def empty : AdjacencyMembershipDelta := ⟨false, .empty, .empty⟩

/-- The delta that adds the edges. -/
def fromEdges (edges : Edges) : AdjacencyMembershipDelta where
  resetOut := false
  outgoing := .fromAdditions edges.nxtsOut
  incoming := .fromAdditions edges.nxtsIn

/-- One outgoing neighbor more. -/
def addOut (delta : AdjacencyMembershipDelta) (neighbor : UInt64) : AdjacencyMembershipDelta :=
  { delta with outgoing := delta.outgoing.add neighbor }

/-- One outgoing neighbor less. -/
def removeOut (delta : AdjacencyMembershipDelta) (neighbor : UInt64) : AdjacencyMembershipDelta :=
  { delta with outgoing := delta.outgoing.remove neighbor }

/-- One incoming neighbor more. -/
def addIn (delta : AdjacencyMembershipDelta) (neighbor : UInt64) : AdjacencyMembershipDelta :=
  { delta with incoming := delta.incoming.add neighbor }

/-- One incoming neighbor less. -/
def removeIn (delta : AdjacencyMembershipDelta) (neighbor : UInt64) : AdjacencyMembershipDelta :=
  { delta with incoming := delta.incoming.remove neighbor }

/-- Clears the outgoing side; earlier outgoing changes no longer matter. -/
def setResetOut (delta : AdjacencyMembershipDelta) : AdjacencyMembershipDelta :=
  { delta with resetOut := true, outgoing := .empty }

/-- Applies a newer delta after this delta. -/
def compose (delta newer : AdjacencyMembershipDelta) : AdjacencyMembershipDelta where
  resetOut := delta.resetOut || newer.resetOut
  outgoing := if newer.resetOut then newer.outgoing else delta.outgoing.compose newer.outgoing
  incoming := delta.incoming.compose newer.incoming

/-- The edges after the delta; a reset clears the outgoing side first. -/
def applyTo (delta : AdjacencyMembershipDelta) (edges : Edges) : Edges where
  nxtsOut := delta.outgoing.applyTo (if delta.resetOut then ∅ else edges.nxtsOut)
  nxtsIn := delta.incoming.applyTo edges.nxtsIn

theorem applyTo_empty (edges : Edges) : empty.applyTo edges = edges := by
  ext x <;> simp [applyTo, empty]

/-- **Composing two deltas is applying one after the other**, also where the
newer one clears what the older one added. -/
theorem applyTo_compose (delta newer : AdjacencyMembershipDelta) (edges : Edges) :
    (delta.compose newer).applyTo edges = newer.applyTo (delta.applyTo edges) := by
  have hin : ((delta.compose newer).applyTo edges).nxtsIn
      = (newer.applyTo (delta.applyTo edges)).nxtsIn :=
    BitmapMembershipDelta.applyTo_compose _ _ _
  have hout : ((delta.compose newer).applyTo edges).nxtsOut
      = (newer.applyTo (delta.applyTo edges)).nxtsOut := by
    by_cases hreset : newer.resetOut = true
    · simp [applyTo, compose, hreset]
    · simp [applyTo, compose, hreset, BitmapMembershipDelta.applyTo_compose]
  exact Edges.ext hout hin

theorem compose_assoc : Std.Associative compose where
  assoc older middle newer := by
    have hbitmap := BitmapMembershipDelta.compose_assoc.assoc
    cases hnewer : newer.resetOut <;> simp [compose, hnewer, hbitmap]
    -- only where nothing newer clears the outgoing side does the middle one decide
    cases middle.resetOut <;> simp [hbitmap]

theorem compose_empty : Std.LawfulIdentity compose empty where
  left_id delta := by
    have hleft := BitmapMembershipDelta.compose_empty.left_id
    simp [compose, empty, hleft]
  right_id delta := by
    have hright := BitmapMembershipDelta.compose_empty.right_id
    simp [compose, empty, hright]

/-! ## §2. The delta's frame. -/

/-- `b"HLXADJ2\0"`. -/
def MAGIC : Bytes := [0x48, 0x4C, 0x58, 0x41, 0x44, 0x4A, 0x32, 0x00]

variable (codec : RoaringCodec)

/-- The delta's bytes; a length past `u32` panics. -/
def encode (delta : AdjacencyMembershipDelta) : Except MergeFault Bytes := do
  let outgoing ← delta.outgoing.encode codec
  let incoming ← delta.incoming.encode codec
  let outgoingLen ← expectU32 "outgoing delta length fits u32" outgoing.length
  let incomingLen ← expectU32 "incoming delta length fits u32" incoming.length
  return MAGIC ++ ([if delta.resetOut then 1 else 0]
    ++ ((leBytes U32_LEN outgoingLen ++ outgoing) ++ (leBytes U32_LEN incomingLen ++ incoming)))

/-- The reset flag: 0 or 1. -/
def takeResetFlag (total : Nat) : Read Bool := do
  match ← takeU8 total with
  | 0 => return false
  | 1 => return true
  | value => throw (.custom s!"invalid adjacency reset flag {value}")

/-- A length prefix and one direction's bitmap delta. -/
def takeMembershipDelta (total : Nat) (direction : String) : Read BitmapMembershipDelta := do
  let len ← takeU32Le total
  let bytes ← takeSlice total len
  match ← Reader.ofExcept (BitmapMembershipDelta.decodeIfDelta codec bytes) with
  | some delta => return delta
  | none => throw (.custom s!"adjacency {direction} membership delta is malformed")

/-- The fields behind the magic bytes. -/
def takeDelta (total : Nat) : Read AdjacencyMembershipDelta := do
  let resetOut ← takeResetFlag total
  let outgoing ← takeMembershipDelta codec total "outgoing"
  let incoming ← takeMembershipDelta codec total "incoming"
  return ⟨resetOut, outgoing, incoming⟩

/-- The delta of a frame that starts with the magic. -/
def decodeFrame (bytes : Bytes) : Except EncodingError AdjacencyMembershipDelta :=
  Reader.finish (fun n => .custom s!"adjacency membership delta has {n} trailing bytes")
    (takeDelta codec bytes.length) (bytes.drop MAGIC.length)

/-- The delta of a frame, `none` for bytes that are not one. -/
def decodeIfDelta (bytes : Bytes) : Except EncodingError (Option AdjacencyMembershipDelta) :=
  if MAGIC.isPrefixOf bytes then do
    let delta ← decodeFrame codec bytes
    return some delta
  else
    return none

variable {codec}

variable {bytes s t : Bytes} {total : Nat}

/-- The layout of a frame around two bitmap deltas. -/
def frame (reset : UInt8) (outgoing incoming : Bytes) : Bytes :=
  MAGIC ++ (reset :: (leBytes U32_LEN outgoing.length ++ (outgoing ++
    (leBytes U32_LEN incoming.length ++ incoming))))

theorem takeResetFlag_run_ok {reset : Bool} :
    (takeResetFlag total).run s = .ok (reset, t) ↔ s = (if reset then 1 else 0) :: t := by
  unfold takeResetFlag
  simp only [bind_run_ok, takeU8_run_ok]
  constructor
  · rintro ⟨flag, u, rfl, hread⟩
    split at hread
    · obtain ⟨rfl, rfl⟩ := pure_run_ok.mp hread
      rfl
    · obtain ⟨rfl, rfl⟩ := pure_run_ok.mp hread
      rfl
    · exact nomatch hread
  · rintro rfl
    refine ⟨_, t, rfl, ?_⟩
    cases reset <;> rfl

theorem takeMembershipDelta_run_ok {direction : String} {delta : BitmapMembershipDelta} :
    (takeMembershipDelta codec total direction).run s = .ok (delta, t) ↔
      ∃ x, x.length < 2 ^ 32 ∧ s = leBytes U32_LEN x.length ++ (x ++ t) ∧
        BitmapMembershipDelta.decodeIfDelta codec x = .ok (some delta) := by
  unfold takeMembershipDelta
  simp only [bind_run_ok, takeU32Le_run_ok, takeSlice_run_ok, ofExcept_run_ok]
  constructor
  · rintro ⟨len, u, ⟨rfl, hlen⟩, x, v, ⟨rfl, rfl⟩, found, w, ⟨hx, rfl⟩, hread⟩
    cases found with
    | none => exact nomatch hread
    | some found =>
      obtain ⟨rfl, rfl⟩ := pure_run_ok.mp hread
      exact ⟨x, hlen, rfl, hx⟩
  · rintro ⟨x, hlen, rfl, hx⟩
    exact ⟨x.length, x ++ t, ⟨rfl, hlen⟩, x, t, ⟨rfl, rfl⟩, some delta, t, ⟨hx, rfl⟩, rfl⟩

theorem takeDelta_run_ok : (takeDelta codec total).run s = .ok (delta, t) ↔
    ∃ x y, x.length < 2 ^ 32 ∧ y.length < 2 ^ 32 ∧
      MAGIC ++ s = frame (if delta.resetOut then 1 else 0) x y ++ t ∧
      BitmapMembershipDelta.decodeIfDelta codec x = .ok (some delta.outgoing) ∧
      BitmapMembershipDelta.decodeIfDelta codec y = .ok (some delta.incoming) := by
  simp only [takeDelta, bind_run_ok, takeResetFlag_run_ok, takeMembershipDelta_run_ok, pure_run_ok,
    frame, append_assoc, cons_append, append_cancel_left_eq]
  constructor
  · rintro ⟨reset, _, rfl, out, _, ⟨x, hxlen, rfl, hx⟩, inc, _, ⟨y, hylen, rfl, hy⟩, rfl, rfl⟩
    exact ⟨x, y, hxlen, hylen, rfl, hx, hy⟩
  · rintro ⟨x, y, hxlen, hylen, rfl, hx, hy⟩
    exact ⟨_, _, rfl, _, _, ⟨x, hxlen, rfl, hx⟩, _, t, ⟨y, hylen, rfl, hy⟩, rfl, rfl⟩

/-- What a written frame is. -/
theorem encode_eq_ok (h : delta.encode codec = .ok bytes) :
    ∃ outgoing incoming, delta.outgoing.encode codec = .ok outgoing ∧
      delta.incoming.encode codec = .ok incoming ∧
      outgoing.length < 2 ^ 32 ∧ incoming.length < 2 ^ 32 ∧
      bytes = frame (if delta.resetOut then 1 else 0) outgoing incoming := by
  unfold encode at h
  obtain ⟨outgoing, hout, h⟩ := except_bind_ok h
  obtain ⟨incoming, hin, h⟩ := except_bind_ok h
  obtain ⟨houtLen, h⟩ := expectU32_bind_eq_ok h
  obtain ⟨hinLen, h⟩ := expectU32_bind_eq_ok h
  refine ⟨outgoing, incoming, hout, hin, houtLen, hinLen, ?_⟩
  rw [← Except.ok.inj h, frame, append_assoc (leBytes _ _)]
  rfl

theorem decodeIfDelta_of_magic (h : MAGIC.isPrefixOf bytes = true) :
    decodeIfDelta codec bytes = some <$> decodeFrame codec bytes := by
  unfold decodeIfDelta
  rw [if_pos h]
  rfl

theorem decodeIfDelta_of_not_magic (h : ¬ MAGIC.isPrefixOf bytes = true) :
    decodeIfDelta codec bytes = .ok none := by
  unfold decodeIfDelta
  rw [if_neg h]
  rfl

/-- A written frame starts with the magic. -/
theorem magic_isPrefixOf_encode
    (h : delta.encode codec = .ok bytes) : MAGIC.isPrefixOf bytes = true := by
  obtain ⟨_, _, -, -, -, -, rfl⟩ := encode_eq_ok h
  exact isPrefixOf_iff_prefix.mpr (prefix_append _ _)

/-- **A delta is decoded from its frame only.** -/
theorem decodeIfDelta_eq_some :
    decodeIfDelta codec bytes = .ok (some delta) ↔
      ∃ x y, x.length < 2 ^ 32 ∧ y.length < 2 ^ 32 ∧
        bytes = frame (if delta.resetOut then 1 else 0) x y ∧
        BitmapMembershipDelta.decodeIfDelta codec x = .ok (some delta.outgoing) ∧
        BitmapMembershipDelta.decodeIfDelta codec y = .ok (some delta.incoming) := by
  simp only [decodeIfDelta, framed_eq_some, decodeFrame, finish_eq_ok, takeDelta_run_ok, append_nil]
  constructor
  · rintro ⟨⟨body, rfl⟩, hread⟩
    rwa [drop_left] at hread
  · rintro ⟨x, y, hxlen, hylen, rfl, hx, hy⟩
    exact ⟨⟨_, rfl⟩, x, y, hxlen, hylen, by rw [frame, drop_left], hx, hy⟩

/-- **Every frame written is read back.** -/
theorem decodeIfDelta_encode (h : codec.Lossless)
    (hbytes : delta.encode codec = .ok bytes) : decodeIfDelta codec bytes = .ok (some delta) := by
  obtain ⟨outgoing, incoming, hout, hin, houtLen, hinLen, rfl⟩ := encode_eq_ok hbytes
  exact decodeIfDelta_eq_some.mpr ⟨outgoing, incoming, houtLen, hinLen, rfl,
    BitmapMembershipDelta.decodeIfDelta_encode h hout,
    BitmapMembershipDelta.decodeIfDelta_encode h hin⟩

end AdjacencyMembershipDelta

/-! ## §3. Stored rows. -/

/-- The tag of plain edges. -/
def ENCODING_TYPE_NONE : UInt8 := 0x10

variable (codec : RoaringCodec)

/-- The edges' bytes; a length past `u32` panics. -/
def encodeEdges (edges : Edges) : Except MergeFault Bytes := do
  let outSize ← expectU32 "outgoing edge bitmap exceeds u32 length prefix"
    (codec.serializedSize edges.nxtsOut)
  let inSize ← expectU32 "incoming edge bitmap exceeds u32 length prefix"
    (codec.serializedSize edges.nxtsIn)
  return [ENCODING_TYPE_NONE] ++ ((leBytes U32_LEN outSize ++ codec.serialize edges.nxtsOut)
    ++ (leBytes U32_LEN inSize ++ codec.serialize edges.nxtsIn))

/-- One direction of a stored row; what follows the bitmap in its slice is
ignored. -/
def takeEdgeBitmap (total : Nat) : Read (Finset UInt64) := do
  let len ← takeU32Le total
  let bytes ← takeSlice total len
  match codec.deserialize bytes with
  | .error error => throw (.io error)
  | .ok (ids, _) => return ids

/-- The fields of plain edges. -/
def takeEdges (total : Nat) : Read Edges := do
  let encodingType ← takeU8 total
  Reader.rejectIf (encodingType ≠ ENCODING_TYPE_NONE) (.invalidEncodingType encodingType)
  let nxtsOut ← takeEdgeBitmap codec total
  let nxtsIn ← takeEdgeBitmap codec total
  return ⟨nxtsOut, nxtsIn⟩

/-- Trailing bytes of a plain row are ignored. -/
def decodeEdges (data : Bytes) : Except EncodingError Edges :=
  if data = [] then
    return Edges.new
  else do
    match ← AdjacencyMembershipDelta.decodeIfDelta codec data with
    | some delta => return delta.applyTo Edges.new
    | none => do
      let (edges, _) ← (takeEdges codec data.length).run data
      return edges

/-- Only the outgoing side of a plain row. -/
def takeOutEdges (total : Nat) : Read Edges := do
  let encodingType ← takeU8 total
  Reader.rejectIf (encodingType ≠ ENCODING_TYPE_NONE) (.invalidEncodingType encodingType)
  let nxtsOut ← takeEdgeBitmap codec total
  return ⟨nxtsOut, ∅⟩

/-- `offset += len`.  The source checks the new offset only when it reads the next
length prefix there; that failure is this one's. -/
def skipTo (total len : Nat) : Read Unit := do
  let _ ← Reader.takeRaw
    (fun len rest => .bufferTooShort (total - rest + len + U32_LEN) total) len
  return ()

/-- Only the incoming side of a plain row. -/
def takeInEdges (total : Nat) : Read Edges := do
  let encodingType ← takeU8 total
  Reader.rejectIf (encodingType ≠ ENCODING_TYPE_NONE) (.invalidEncodingType encodingType)
  let outLen ← takeU32Le total
  skipTo total outLen
  let nxtsIn ← takeEdgeBitmap codec total
  return ⟨∅, nxtsIn⟩

/-- The outgoing side of a stored value. -/
def decodeOutEdges (data : Bytes) : Except EncodingError Edges :=
  if data = [] then
    return Edges.new
  else do
    match ← AdjacencyMembershipDelta.decodeIfDelta codec data with
    | some _ => do
      let edges ← decodeEdges codec data
      return { edges with nxtsIn := ∅ }
    | none => do
      let (edges, _) ← (takeOutEdges codec data.length).run data
      return edges

/-- The incoming side of a stored value. -/
def decodeInEdges (data : Bytes) : Except EncodingError Edges :=
  if data = [] then
    return Edges.new
  else do
    match ← AdjacencyMembershipDelta.decodeIfDelta codec data with
    | some _ => do
      let edges ← decodeEdges codec data
      return { edges with nxtsOut := ∅ }
    | none => do
      let (edges, _) ← (takeInEdges codec data.length).run data
      return edges

variable {codec}

variable {s t : Bytes} {total : Nat} {ids : Finset UInt64}

theorem takeEdgeBitmap_run_ok :
    (takeEdgeBitmap codec total).run s = .ok (ids, t) ↔
      ∃ x u, x.length < 2 ^ 32 ∧ s = leBytes U32_LEN x.length ++ (x ++ t) ∧
        codec.deserialize x = .ok (ids, u) := by
  unfold takeEdgeBitmap
  simp only [bind_run_ok, takeU32Le_run_ok, takeSlice_run_ok]
  constructor
  · rintro ⟨len, u, ⟨rfl, hlen⟩, x, v, ⟨rfl, rfl⟩, hread⟩
    cases hx : codec.deserialize x with
    | error error =>
      rw [hx] at hread
      exact nomatch hread
    | ok result =>
      rw [hx] at hread
      obtain ⟨rfl, rfl⟩ := pure_run_ok.mp hread
      exact ⟨x, result.2, hlen, rfl, hx⟩
  · rintro ⟨x, u, hlen, rfl, hx⟩
    refine ⟨x.length, x ++ t, ⟨rfl, hlen⟩, x, t, ⟨rfl, rfl⟩, ?_⟩
    rw [hx]
    rfl

theorem takeEdgeBitmap_reads (h : codec.Lossless) (hlen : codec.serializedSize ids < 2 ^ 32) :
    Reads (takeEdgeBitmap codec total)
      (leBytes U32_LEN (codec.serializedSize ids) ++ codec.serialize ids) ids 0 := fun _ _ =>
  takeEdgeBitmap_run_ok.mpr ⟨_, [], hlen, append_assoc _ _ _, h.deserialize_serialize_nil ids⟩

variable {edges : Edges}

/-- What a stored row is. -/
theorem encodeEdges_eq_ok (h : encodeEdges codec edges = .ok bytes) :
    codec.serializedSize edges.nxtsOut < 2 ^ 32 ∧ codec.serializedSize edges.nxtsIn < 2 ^ 32 ∧
    bytes = [ENCODING_TYPE_NONE] ++ ((leBytes U32_LEN (codec.serializedSize edges.nxtsOut)
        ++ codec.serialize edges.nxtsOut)
      ++ (leBytes U32_LEN (codec.serializedSize edges.nxtsIn)
        ++ codec.serialize edges.nxtsIn)) := by
  obtain ⟨hout, h⟩ := expectU32_bind_eq_ok h
  obtain ⟨hin, h⟩ := expectU32_bind_eq_ok h
  exact ⟨hout, hin, (Except.ok.inj h).symm⟩

theorem takeEdges_reads (h : codec.Lossless)
    (hbytes : encodeEdges codec edges = .ok bytes) :
    Reads (takeEdges codec total) bytes edges 0 := by
  obtain ⟨hout, hin, rfl⟩ := encodeEdges_eq_ok hbytes
  refine Reads.bind' (takeU8_reads _) (Reads.rejectIf_bind (by simp) ?_)
  exact Reads.bind' (takeEdgeBitmap_reads h hout)
    (Reads.bind_nil (takeEdgeBitmap_reads h hin) (Reads.pure edges) (le_refl 0))

/-- The type byte keeps a plain row apart from a delta's magic. -/
theorem decodeIfDelta_encodeEdges (hbytes : encodeEdges codec edges = .ok bytes) :
    AdjacencyMembershipDelta.decodeIfDelta codec bytes = .ok none := by
  obtain ⟨-, -, rfl⟩ := encodeEdges_eq_ok hbytes
  apply AdjacencyMembershipDelta.decodeIfDelta_of_not_magic
  simp [AdjacencyMembershipDelta.MAGIC, ENCODING_TYPE_NONE]

/-- **Every stored row is read back.** -/
theorem decodeEdges_encodeEdges (h : codec.Lossless)
    (hbytes : encodeEdges codec edges = .ok bytes) : decodeEdges codec bytes = .ok edges := by
  have hne : bytes ≠ [] := by
    obtain ⟨-, -, rfl⟩ := encodeEdges_eq_ok hbytes
    exact List.cons_ne_nil _ _
  unfold decodeEdges
  rw [if_neg hne, decodeIfDelta_encodeEdges hbytes]
  show ((takeEdges codec bytes.length).run bytes >>= _) = _
  rw [(takeEdges_reads h hbytes).run_eq]
  rfl

end HelixDb.Membership
