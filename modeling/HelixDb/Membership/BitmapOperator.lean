/-
  HelixDb.Membership.BitmapOperator

  **THE BITMAP MERGE OPERATOR** of equality, label and edge-pair rows.

  An operand is a raw addition of one ID, a membership delta or a plain bitmap,
  which adds its IDs.  A stored row is a plain bitmap or a delta; how strictly
  a plain one is read depends on the row (`BitmapBase`).

    • `bitmapOperator_lawful` — the operator's functions do what
      `HelixDb.Lib.DeltaOperator.Lawful` asks of a delta merge operator.
-/
import HelixDb.Membership.BitmapDelta
import HelixDb.Lib.DeltaMerge

namespace HelixDb.Membership

open HelixDb.Lib HelixDb.Encoding BitmapMembershipDelta

/-! ## §1. Stored rows. -/

variable (codec : RoaringCodec)

/-- `SecondaryEqualityBitmapValue::decode`: trailing bytes are rejected. -/
def SecondaryEqualityBitmapValue.decode (bytes : Bytes) :
    Except EncodingError (Finset UInt64) := do
  if let some delta ← decodeIfDelta codec bytes then
    return delta.additions
  match codec.deserialize bytes with
  | .error error => throw (.io s!"failed to decode secondary equality bitmap: {error}")
  | .ok (ids, trailing) =>
    if trailing ≠ [] then
      throw (.custom s!"secondary equality bitmap has {trailing.length} trailing bytes")
    return ids

/-- `SecondaryEqualityValue::decode`: trailing bytes are ignored. -/
def SecondaryEqualityValue.decode (data : Bytes) : Except EncodingError (Finset UInt64) := do
  if let some delta ← decodeIfDelta codec data then
    return delta.additions
  match codec.deserialize data with
  | .error error => throw (.io s!"Failed to decode RoaringTreemap: {error}")
  | .ok (ids, _) => return ids

/-- How a bitmap row's stored value decodes, matching that row's readers. -/
inductive BitmapBase where
  | strict
  | portablePrefix
deriving DecidableEq

/-- The stored value as its family reads it. -/
def BitmapBase.decode (base : BitmapBase) (stored : Bytes) : Except MergeFault (Finset UInt64) :=
  match base with
  | .strict => mergeDecode (SecondaryEqualityBitmapValue.decode codec stored)
  | .portablePrefix => mergeDecode (SecondaryEqualityValue.decode codec stored)

/-! ## §2. The operator. -/

namespace BitmapMergeOperator

/-- `b"HLXRBM1\0"`, the magic of a raw addition. -/
def BITMAP_DELTA_MAGIC : Bytes := [0x48, 0x4C, 0x58, 0x52, 0x42, 0x4D, 0x31, 0x00]

/-- The tag of a single addition. -/
def BITMAP_ADD : UInt8 := 0x00

/-- The ID of a raw addition: the magic, the operation byte and the ID in
big-endian order, and nothing else. -/
def decodeBitmapAdd (bytes : Bytes) : Option UInt64 :=
  if bytes.length ≠ 17 ∨ bytes.take 8 ≠ BITMAP_DELTA_MAGIC ∨ bytes[8]? ≠ some BITMAP_ADD then
    none
  else
    some (UInt64.ofNat (ofBe ((bytes.drop 9).take 8)))

/-- An operand: a single addition, a delta, or a bitmap to add. -/
def decodeOperand (bytes : Bytes) : Except MergeFault BitmapMembershipDelta := do
  if let some id := decodeBitmapAdd bytes then
    return empty.add id
  if let some delta ← mergeDecode (decodeIfDelta codec bytes) then
    return delta
  let decoded ← mergeDecode (SecondaryEqualityBitmapValue.decode codec bytes)
  return fromAdditions decoded

variable (base : BitmapBase)

/-- The common tail of `merge` and `merge_batch`: without an existing value
the delta is the result, an existing delta is composed with it, and anything
else is a base it is applied to. -/
def mergeInto (existingValue : Option Bytes) (delta : BitmapMembershipDelta) :
    Except MergeFault Bytes :=
  match existingValue with
  | none => delta.encode codec
  | some existing => do
    match ← mergeDecode (decodeIfDelta codec existing) with
    | some existingDelta => (existingDelta.compose delta).encode codec
    | none => do
      let bitmap ← base.decode codec existing
      return codec.serialize (delta.applyTo bitmap)

/-- One operand onto a value. -/
def merge (existingValue : Option Bytes) (operand : Bytes) : Except MergeFault Bytes := do
  let operand ← decodeOperand codec operand
  mergeInto codec base existingValue operand

/-- A run of operands, composed first. -/
def mergeBatch (existingValue : Option Bytes) (operands : List Bytes) :
    Except MergeFault Bytes := do
  let delta ← operands.foldlM
    (fun delta operand => do
      let newer ← decodeOperand codec operand
      return compose delta newer)
    empty
  mergeInto codec base existingValue delta

/-- A run of operands applied to the stored value. -/
def mergeBatchWithBase (existingValue : Option Bytes) (operands : List Bytes) :
    Except MergeFault Merged := do
  let stored ← existingValue.elim (.ok ∅) (base.decode codec)
  let bitmap ← operands.foldlM
    (fun bitmap operand => do
      let delta ← decodeOperand codec operand
      return applyTo delta bitmap)
    stored
  if bitmap = ∅ then
    return .tombstone
  else
    return .value (codec.serialize bitmap)

end BitmapMergeOperator

/-- The operator of rows of kind `base`, as a delta merge operator. -/
def bitmapOperator (base : BitmapBase) :
    DeltaOperator MergeFault BitmapMembershipDelta (Finset UInt64) where
  decodeOperand := BitmapMergeOperator.decodeOperand codec
  isDelta := BitmapMembershipDelta.MAGIC.isPrefixOf
  encode := encode codec
  identity := empty
  compose := compose
  apply := applyTo
  decodeBase := base.decode codec
  emptyBase := ∅
  isEmpty ids := decide (ids = ∅)
  encodeBase ids := .ok (codec.serialize ids)
  merge := BitmapMergeOperator.merge codec base
  mergeBatch := BitmapMergeOperator.mergeBatch codec base
  mergeBatchWithBase := BitmapMergeOperator.mergeBatchWithBase codec base

/-! ## §3. The operator is lawful. -/

variable {codec} {delta : BitmapMembershipDelta}

namespace BitmapMergeOperator

/-- A frame is not a raw addition: their magics differ. -/
theorem decodeBitmapAdd_of_magic {bytes : Bytes}
    (h : MAGIC.isPrefixOf bytes = true) : decodeBitmapAdd bytes = none := by
  unfold decodeBitmapAdd
  obtain ⟨rest, rfl⟩ := List.isPrefixOf_iff_prefix.mp h
  have htake : (MAGIC ++ rest).take 8 ≠ BITMAP_DELTA_MAGIC := by
    show MAGIC ≠ BITMAP_DELTA_MAGIC
    decide
  rw [if_pos (Or.inr (Or.inl htake))]

/-- An operand that is a frame decodes as the frame does. -/
theorem decodeIfDelta_of_decodeOperand {bytes : Bytes}
    (hmagic : MAGIC.isPrefixOf bytes = true) (h : decodeOperand codec bytes = .ok delta) :
    mergeDecode (decodeIfDelta codec bytes) = .ok (some delta) := by
  unfold decodeOperand at h
  rw [decodeBitmapAdd_of_magic hmagic] at h
  rw [decodeIfDelta_of_magic hmagic] at h ⊢
  cases hframe : decodeFrame codec bytes with
  | ok read =>
    rw [hframe] at h
    cases h
    rfl
  | error e =>
    rw [hframe] at h
    cases h

section Merges

variable (base : BitmapBase)

/-- An existing delta is composed with the newer one. -/
theorem mergeInto_delta {existing : Bytes} {older : BitmapMembershipDelta}
    (hmagic : MAGIC.isPrefixOf existing = true)
    (hexisting : decodeOperand codec existing = .ok older) (newer : BitmapMembershipDelta) :
    mergeInto codec base (some existing) newer = (older.compose newer).encode codec := by
  show (mergeDecode (decodeIfDelta codec existing) >>= _) = _
  rw [decodeIfDelta_of_decodeOperand hmagic hexisting]
  rfl

end Merges

end BitmapMergeOperator

/-- A stored bitmap reads back under either rule. -/
theorem BitmapBase.decode_serialize (h : codec.Lossless) (base : BitmapBase) (ids : Finset UInt64) :
    base.decode codec (codec.serialize ids) = .ok ids := by
  have hplain : decodeIfDelta codec (codec.serialize ids) = .ok none :=
    decodeIfDelta_of_not_magic
      (not_magic_serialize h ids)
  cases base with
  | strict =>
    show mergeDecode (SecondaryEqualityBitmapValue.decode codec (codec.serialize ids)) = _
    unfold SecondaryEqualityBitmapValue.decode
    rw [hplain, h.deserialize_serialize_nil]
    rfl
  | portablePrefix =>
    show mergeDecode (SecondaryEqualityValue.decode codec (codec.serialize ids)) = _
    unfold SecondaryEqualityValue.decode
    rw [hplain, h.deserialize_serialize_nil]
    rfl

/-- **The bitmap operator is a lawful delta merge operator.** -/
theorem bitmapOperator_lawful (h : codec.Lossless) (base : BitmapBase) :
    (bitmapOperator codec base).Lawful := by
  refine .of_mergeInto (BitmapMergeOperator.mergeInto codec base) compose_assoc compose_empty
    applyTo_empty applyTo_compose ?_ ?_ (fun _ => rfl)
    (fun _ _ newer hdelta he => BitmapMergeOperator.mergeInto_delta base hdelta he newer)
    (fun _ _ => rfl) (fun _ _ => rfl) ?_
  · intro delta bytes hbytes
    have hmagic := magic_isPrefixOf_encode hbytes
    refine ⟨?_, hmagic⟩
    show BitmapMergeOperator.decodeOperand codec _ = _
    rw [BitmapMergeOperator.decodeOperand, BitmapMergeOperator.decodeBitmapAdd_of_magic hmagic,
      decodeIfDelta_encode h hbytes]
    rfl
  · intro ids bytes _ hbytes
    cases hbytes
    exact base.decode_serialize h ids
  · intro stored operands
    have hstore : ∀ ids : Finset UInt64, (if ids = ∅ then return .tombstone
        else return .value (codec.serialize ids)) = (bitmapOperator codec base).store ids := by
      intro ids
      split_ifs with hempty
      · rw [DeltaOperator.store_of_isEmpty (decide_eq_true hempty)]
        rfl
      · rw [DeltaOperator.store_of_not_isEmpty (decide_eq_false hempty)]
        rfl
    simp only [← hstore]
    cases stored <;> rfl

end HelixDb.Membership
