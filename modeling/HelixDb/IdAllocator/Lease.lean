/-
  HelixDb.IdAllocator.Lease

  **THE LEASE ARITHMETIC** of the ID allocator: the stored watermark value and
  the watermark an extension persists.

    • `decode_encode` — a stored watermark reads back;
    • `extensionTarget_mono` — more claims never lower the target;
    • `extensionTarget_of_chunk` — extending from a whole number of chunks above
      the lease reaches no further than extending from the lease itself, as
      long as some headroom is asked for.
-/
import HelixDb.Lib.Bytes
import HelixDb.Lib.Saturating
import HelixDb.Encoding.Error

namespace HelixDb.IdAllocator

open HelixDb.Lib HelixDb.Encoding

/-! ## §1. The stored watermark. -/

/-- `WATERMARK_LEN`. -/
def WATERMARK_LEN : Nat := 8

namespace IdAllocationWatermarkValue

/-- `IdAllocationWatermarkValue::encode`: the exclusive end as eight big-endian bytes. -/
def encode (exclusiveId : Nat) : Bytes := beBytes WATERMARK_LEN exclusiveId

/-- `IdAllocationWatermarkValue::decode`. -/
def decode (bytes : Bytes) : Except EncodingError Nat :=
  if bytes.length ≠ WATERMARK_LEN then
    .error (.invalidKey s!"ID allocation watermark must be {WATERMARK_LEN} bytes, got {bytes.length}")
  else .ok (ofBe bytes)

theorem decode_encode {exclusiveId : Nat} (h : exclusiveId ≤ U64_MAX) :
    decode (encode exclusiveId) = .ok exclusiveId := by
  have hlen : (encode exclusiveId).length = WATERMARK_LEN := beBytes_length _ _
  have hlt : exclusiveId < 256 ^ WATERMARK_LEN :=
    lt_of_le_of_lt h (by decide)
  rw [decode, if_neg (not_not.mpr hlen), encode, ofBe_beBytes _ _ hlt]

end IdAllocationWatermarkValue

/-- `load_persisted_watermark` on the stored bytes: zero when nothing is stored. -/
def loadPersistedWatermark : Option Bytes → Except EncodingError Nat
  | none => .ok 0
  | some bytes => IdAllocationWatermarkValue.decode bytes

/-! ## §2. The extension target. -/

/-- The whole lease chunks an extension adds for `missing` IDs; at least one. -/
def chunksFor (missing leaseSize : Nat) : Nat :=
  if missing = 0 then 1 else missing ⌈/⌉ leaseSize

/-- `extension_target`: the next exclusive watermark, without overflowing the ID space. -/
def extensionTarget (currentLeaseEnd nextId leaseSize refillThreshold : Nat) : Nat :=
  let desiredLeaseEnd := saturatingAdd nextId refillThreshold
  if desiredLeaseEnd < currentLeaseEnd then currentLeaseEnd
  else
    let missing := desiredLeaseEnd - currentLeaseEnd
    max (saturatingAdd currentLeaseEnd (saturatingMul (chunksFor missing leaseSize) leaseSize))
      desiredLeaseEnd

section Target

variable {base next size threshold : Nat}

/-- An extension never lowers the watermark it starts from. -/
theorem le_extensionTarget : base ≤ extensionTarget base next size threshold := by
  unfold extensionTarget
  dsimp only
  split
  · exact le_rfl
  · omega

/-- The target covers every claimed ID. -/
theorem next_le_extensionTarget (hnext : next ≤ U64_MAX) :
    next ≤ extensionTarget base next size threshold := by
  have hdesired : next ≤ saturatingAdd next threshold := le_saturatingAdd hnext
  unfold extensionTarget
  dsimp only
  split
  · omega
  · exact le_trans hdesired (le_max_right _ _)

theorem extensionTarget_le_max (hbase : base ≤ U64_MAX) :
    extensionTarget base next size threshold ≤ U64_MAX := by
  unfold extensionTarget
  dsimp only
  split
  · exact hbase
  · exact max_le (saturatingAdd_le _ _) (saturatingAdd_le _ _)

theorem missing_le_chunks (hsize : 0 < size) (missing : Nat) :
    missing ≤ size * chunksFor missing size := by
  unfold chunksFor
  split
  · omega
  · exact le_smul_ceilDiv hsize

theorem chunksFor_mono (hsize : 0 < size) {missing missing' : Nat} (h : missing ≤ missing') :
    chunksFor missing size ≤ chunksFor missing' size := by
  unfold chunksFor
  split
  case isTrue hzero =>
    split
    · exact le_rfl
    · have hle : missing' ≤ size * (missing' ⌈/⌉ size) := le_smul_ceilDiv hsize
      by_contra hlt
      have : missing' ⌈/⌉ size = 0 := by omega
      rw [this] at hle
      omega
  case isFalse hpos =>
    rw [if_neg (by omega)]
    exact (ceilDiv_le_iff_le_smul hsize).mpr (le_trans h (le_smul_ceilDiv hsize))

/-- A lease with more headroom than wanted stays as it is. -/
theorem extensionTarget_of_lt (h : saturatingAdd next threshold < base) :
    extensionTarget base next size threshold = base := by
  unfold extensionTarget
  rw [if_pos h]

/-- Once headroom is wanted, the target is the base plus whole chunks, cut off at the end of the
    ID space. -/
theorem extensionTarget_eq (hsize : 0 < size) (hbase : base ≤ saturatingAdd next threshold) :
    extensionTarget base next size threshold =
      min (base + size * chunksFor (saturatingAdd next threshold - base) size) U64_MAX := by
  have hcover := missing_le_chunks hsize (saturatingAdd next threshold - base)
  have hmax := saturatingAdd_le next threshold
  unfold extensionTarget
  dsimp only
  rw [if_neg (by omega)]
  generalize saturatingAdd next threshold = desired at *
  unfold saturatingAdd saturatingMul
  rw [Nat.mul_comm]
  omega

/-- **More claims never lower the target.** -/
theorem extensionTarget_mono (hsize : 0 < size) {next' : Nat} (h : next ≤ next') :
    extensionTarget base next size threshold ≤ extensionTarget base next' size threshold := by
  have hdesired := saturatingAdd_mono threshold h
  by_cases hbase : base ≤ saturatingAdd next threshold
  · rw [extensionTarget_eq hsize hbase, extensionTarget_eq hsize (le_trans hbase hdesired)]
    have hchunks := chunksFor_mono hsize (Nat.sub_le_sub_right hdesired base)
    have := Nat.mul_le_mul_left size hchunks
    omega
  · rw [extensionTarget_of_lt (by omega)]
    exact le_extensionTarget

/-! ## §3. Watermarks a lease can reach. -/

/-- `mark` lies a whole number of lease chunks above `lease`, or at the end of the ID space. -/
def OnChunk (size lease mark : Nat) : Prop := mark = U64_MAX ∨ ∃ k, mark = lease + size * k

theorem OnChunk.extensionTarget {lease : Nat} (hsize : 0 < size) (h : OnChunk size lease base) :
    OnChunk size lease (extensionTarget base next size threshold) := by
  by_cases hbase : base ≤ saturatingAdd next threshold
  · rw [extensionTarget_eq hsize hbase]
    rcases h with hmax | ⟨k, hk⟩
    · left
      omega
    · by_cases hover : base + size * chunksFor (saturatingAdd next threshold - base) size ≤ U64_MAX
      · right
        refine ⟨k + chunksFor (saturatingAdd next threshold - base) size, ?_⟩
        rw [Nat.mul_add]
        omega
      · left
        exact min_eq_right (by omega)
  · rwa [extensionTarget_of_lt (by omega)]

/-- **Extending from a whole chunk.**  With headroom asked for, extending from a watermark that is
    whole chunks above the lease ends where extending from the lease ends.  Without headroom the
    former adds a chunk the latter does not. -/
theorem extensionTarget_of_chunk {lease : Nat} (hsize : 0 < size) (hthreshold : 0 < threshold)
    (hlease : lease ≤ base) (hnext : base ≤ next) (hmax : next ≤ U64_MAX)
    (hchunk : OnChunk size lease base) (hreach : base ≤ extensionTarget lease next size threshold) :
    extensionTarget base next size threshold ≤ extensionTarget lease next size threshold := by
  have hdesired : next ≤ saturatingAdd next threshold := le_saturatingAdd hmax
  rcases hchunk with htop | ⟨k, hk⟩
  · have hle : extensionTarget base next size threshold ≤ U64_MAX :=
      extensionTarget_le_max (le_of_eq htop)
    omega
  · rw [extensionTarget_eq hsize (by omega), extensionTarget_eq hsize (by omega)]
    by_cases hpos : saturatingAdd next threshold - base = 0
    · -- No missing IDs: the sum saturated, so the base is the end of the ID space.
      have hsat : base = U64_MAX := by
        unfold saturatingAdd at hpos hdesired
        omega
      rw [extensionTarget_eq hsize (by omega)] at hreach
      omega
    · have hceil := missing_le_chunks hsize (saturatingAdd next threshold - lease)
      have hk' : saturatingAdd next threshold - base ≤
          size * (chunksFor (saturatingAdd next threshold - lease) size - k) := by
        rw [Nat.mul_sub]
        omega
      have hchunks : chunksFor (saturatingAdd next threshold - base) size ≤
          chunksFor (saturatingAdd next threshold - lease) size - k := by
        rw [chunksFor, if_neg hpos]
        exact (ceilDiv_le_iff_le_smul hsize).mpr hk'
      have := Nat.mul_le_mul_left size hchunks
      rw [Nat.mul_sub] at this
      omega

end Target

end HelixDb.IdAllocator
