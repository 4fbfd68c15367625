/-
  HelixDb.Membership.EdgeOperator

  **THE EDGE MERGE OPERATOR** of adjacency rows.

  An operand is a membership delta, one raw edge change (an operation byte and
  a neighbour) or a plain row, which adds its edges.  Unlike the bitmap
  operator, this one also takes an existing raw change for a delta.

    • `edgeOperator_lawful` — the operator's functions do what
      `HelixDb.Lib.DeltaOperator.Lawful` asks of a delta merge operator.
-/
import HelixDb.Membership.Adjacency
import HelixDb.Lib.DeltaMerge

namespace HelixDb.Membership

open HelixDb.Lib HelixDb.Encoding AdjacencyMembershipDelta

/-! ## §1. Raw edge changes. -/

/-- The changes a single-edge operand can make. -/
inductive EdgeDeltaOp where
  | addOut
  | removeOut
  | addIn
  | removeIn
  | resetOut
deriving DecidableEq

/-- The change of a tag. -/
def EdgeDeltaOp.fromByte (byte : UInt8) : Option EdgeDeltaOp :=
  match byte with
  | 0x00 => some .addOut
  | 0x01 => some .removeOut
  | 0x02 => some .addIn
  | 0x03 => some .removeIn
  | 0x04 => some .resetOut
  | _ => none

/-- One raw change: the operation byte and, unless it is a reset, the
neighbour in big-endian order.  What follows is ignored. -/
def decodeEdgeDelta (data : Bytes) : Option (EdgeDeltaOp × UInt64) := do
  let byte ← data.head?
  let op ← EdgeDeltaOp.fromByte byte
  if op = .resetOut then
    return (op, 0)
  if data.length < 9 then
    none
  return (op, UInt64.ofNat (ofBe ((data.drop 1).take 8)))

/-- Bytes that start with the tag of a change. -/
def isEdgeDelta (data : Bytes) : Bool :=
  data.head?.any fun byte => (EdgeDeltaOp.fromByte byte).isSome

/-! ## §2. The operator. -/

namespace EdgeMergeOperator

variable (codec : RoaringCodec)

/-- The delta of one raw change. -/
def ofEdgeDelta (op : EdgeDeltaOp) (nodeId : UInt64) : AdjacencyMembershipDelta :=
  match op with
  | .addOut => empty.addOut nodeId
  | .removeOut => empty.removeOut nodeId
  | .addIn => empty.addIn nodeId
  | .removeIn => empty.removeIn nodeId
  | .resetOut => empty.setResetOut

/-- An operand: a delta, a single change, or edges to add. -/
def decodeOperand (operand : Bytes) : Except MergeFault AdjacencyMembershipDelta := do
  if let some delta ← mergeDecode (decodeIfDelta codec operand) then
    return delta
  if let some (op, nodeId) := decodeEdgeDelta operand then
    return ofEdgeDelta op nodeId
  if isEdgeDelta operand then
    throw (.callback (.custom "malformed adjacency delta"))
  let edges ← mergeDecode (decodeEdges codec operand)
  return fromEdges edges

/-- The common tail of `merge` and `merge_batch`: without an existing value
the delta is the result, an existing delta or raw change is composed with it,
and anything else is a base it is applied to. -/
def mergeInto (existingValue : Option Bytes) (delta : AdjacencyMembershipDelta) :
    Except MergeFault Bytes :=
  match existingValue with
  | none => delta.encode codec
  | some existing => do
    match ← mergeDecode (decodeIfDelta codec existing) with
    | some existingDelta => (existingDelta.compose delta).encode codec
    | none =>
      if isEdgeDelta existing then do
        let existingDelta ← decodeOperand codec existing
        (existingDelta.compose delta).encode codec
      else do
        let merged ← mergeDecode (decodeEdges codec existing)
        encodeEdges codec (delta.applyTo merged)

/-- One operand onto a value. -/
def merge (existingValue : Option Bytes) (operand : Bytes) : Except MergeFault Bytes := do
  let operand ← decodeOperand codec operand
  mergeInto codec existingValue operand

/-- A run of operands, composed first. -/
def mergeBatch (existingValue : Option Bytes) (operands : List Bytes) :
    Except MergeFault Bytes := do
  let delta ← operands.foldlM
    (fun delta operand => do
      let newer ← decodeOperand codec operand
      return compose delta newer)
    empty
  mergeInto codec existingValue delta

/-- A run of operands applied to the stored edges. -/
def mergeBatchWithBase (existingValue : Option Bytes) (operands : List Bytes) :
    Except MergeFault Merged := do
  let stored ← existingValue.elim (.ok Edges.new) fun existing =>
    mergeDecode (decodeEdges codec existing)
  let merged ← operands.foldlM
    (fun merged operand => do
      let delta ← decodeOperand codec operand
      return applyTo delta merged)
    stored
  if merged.isEmpty then
    return .tombstone
  else do
    let bytes ← encodeEdges codec merged
    return .value bytes

end EdgeMergeOperator

/-- The operator of adjacency rows, as a delta merge operator. -/
def edgeOperator (codec : RoaringCodec) :
    DeltaOperator MergeFault AdjacencyMembershipDelta Edges where
  decodeOperand := EdgeMergeOperator.decodeOperand codec
  isDelta bytes := AdjacencyMembershipDelta.MAGIC.isPrefixOf bytes || isEdgeDelta bytes
  encode := encode codec
  identity := empty
  compose := compose
  apply := applyTo
  decodeBase stored := mergeDecode (decodeEdges codec stored)
  emptyBase := Edges.new
  isEmpty := Edges.isEmpty
  encodeBase := encodeEdges codec
  merge := EdgeMergeOperator.merge codec
  mergeBatch := EdgeMergeOperator.mergeBatch codec
  mergeBatchWithBase := EdgeMergeOperator.mergeBatchWithBase codec

/-! ## §3. The operator is lawful. -/

variable {delta : AdjacencyMembershipDelta}

namespace EdgeMergeOperator

variable {codec : RoaringCodec}

/-- An operand that is a frame decodes as the frame does. -/
theorem decodeIfDelta_of_decodeOperand {bytes : Bytes}
    (hmagic : MAGIC.isPrefixOf bytes = true) (h : decodeOperand codec bytes = .ok delta) :
    mergeDecode (decodeIfDelta codec bytes) = .ok (some delta) := by
  unfold decodeOperand at h
  rw [decodeIfDelta_of_magic hmagic] at h ⊢
  cases hframe : decodeFrame codec bytes with
  | ok read =>
    rw [hframe] at h
    cases h
    rfl
  | error e =>
    rw [hframe] at h
    cases h

/-- An existing delta or raw change is composed with the newer delta. -/
theorem mergeInto_delta {existing : Bytes} {older : AdjacencyMembershipDelta}
    (hdelta : (edgeOperator codec).isDelta existing = true)
    (hexisting : decodeOperand codec existing = .ok older) (newer : AdjacencyMembershipDelta) :
    mergeInto codec (some existing) newer = (older.compose newer).encode codec := by
  show (mergeDecode (decodeIfDelta codec existing) >>= _) = _
  by_cases hmagic : MAGIC.isPrefixOf existing = true
  · rw [decodeIfDelta_of_decodeOperand hmagic hexisting]
    rfl
  · have hraw : isEdgeDelta existing = true := (Bool.or_eq_true_iff.mp hdelta).resolve_left hmagic
    rw [decodeIfDelta_of_not_magic hmagic]
    show (if isEdgeDelta existing then _ else _) = _
    rw [if_pos hraw, hexisting]
    rfl

end EdgeMergeOperator

/-- **The edge operator is a lawful delta merge operator.** -/
theorem edgeOperator_lawful {codec : RoaringCodec} (h : codec.Lossless) :
    (edgeOperator codec).Lawful := by
  refine .of_mergeInto (EdgeMergeOperator.mergeInto codec) compose_assoc compose_empty
    applyTo_empty applyTo_compose ?_
    (fun _ _ _ hbytes => mergeDecode_eq_ok.mpr (decodeEdges_encodeEdges h hbytes)) (fun _ => rfl)
    (fun _ _ newer hdelta he => EdgeMergeOperator.mergeInto_delta hdelta he newer)
    (fun _ _ => rfl) (fun _ _ => rfl) ?_
  · intro delta bytes hbytes
    have hmagic := magic_isPrefixOf_encode hbytes
    refine ⟨?_, Bool.or_eq_true_iff.mpr (.inl hmagic)⟩
    show EdgeMergeOperator.decodeOperand codec _ = _
    rw [EdgeMergeOperator.decodeOperand, decodeIfDelta_encode h hbytes]
    rfl
  · intro stored operands
    cases stored <;> rfl

end HelixDb.Membership
