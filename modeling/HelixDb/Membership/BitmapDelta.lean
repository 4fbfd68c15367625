/-
  HelixDb.Membership.BitmapDelta

  **MEMBERSHIP CHANGES OF ONE BITMAP ROW**: `BitmapMembershipDelta`, its frame
  and its two laws.

  A delta holds the IDs it adds and the IDs it removes.  That no ID is in both
  is a field of the structure: `add`, `remove` and `compose` keep it and the
  decoder checks it.

    • `applyTo_compose` — composing is applying one after the other,
    • `decodeIfDelta_eq_some` — a delta is decoded from its frame only,
    • `decodeIfDelta_encode` — every frame written is read back.

  The bitmaps themselves are roaring treemaps, which are not part of this
  repository: a `RoaringCodec` stands for their portable format, and
  `RoaringCodec.Lossless` for what the code relies on.
-/
import HelixDb.Encoding.Codec
import HelixDb.Lib.FoldM
import Mathlib.Data.Finset.Sort

namespace HelixDb.Membership

open HelixDb.Lib HelixDb.Encoding Reader List

/-! ## §1. Roaring treemaps. -/

/-- The portable serialization of a set of 64-bit IDs. -/
structure RoaringCodec where
  /-- `serialize_into` a vector, which cannot fail. -/
  serialize : Finset UInt64 → Bytes
  /-- `deserialize_from` a reader: the set and the bytes not consumed, or the
  text of the error. -/
  deserialize : Bytes → Except String (Finset UInt64 × Bytes)

namespace RoaringCodec

/-- The length of the serialized bitmap. -/
def serializedSize (codec : RoaringCodec) (ids : Finset UInt64) : Nat :=
  (codec.serialize ids).length

/-- The documented behaviour of the format. -/
structure Lossless (codec : RoaringCodec) : Prop where
  /-- A serialized set reads back, and the reader stops where it ends. -/
  deserialize_serialize : ∀ ids rest,
    codec.deserialize (codec.serialize ids ++ rest) = .ok (ids, rest)
  /-- The format starts with a little-endian `u64` shard count, with one shard
  for each 32-bit high part. -/
  shard_count : ∀ ids, ∃ shards body, shards ≤ 2 ^ 32 ∧
    codec.serialize ids = leBytes 8 shards ++ body

theorem Lossless.deserialize_serialize_nil {codec : RoaringCodec} (h : codec.Lossless)
    (ids : Finset UInt64) : codec.deserialize (codec.serialize ids) = .ok (ids, []) := by
  have hround := h.deserialize_serialize ids []
  rwa [List.append_nil] at hround

end RoaringCodec

/-! ## §2. The delta. -/

/-- How a merge call fails: with the message of a decoding error, which the
error itself stands for here, or by a panic. -/
inductive MergeFault where
  | callback (error : EncodingError)
  | panicked (message : String)
deriving DecidableEq

/-- `u32::try_from(len).expect(message)`. -/
def expectU32 (message : String) (len : Nat) : Except MergeFault Nat :=
  if len < 2 ^ 32 then .ok len else .error (.panicked message)

theorem expectU32_bind_eq_ok {α : Type} {message : String} {len : Nat}
    {k : Nat → Except MergeFault α} {a : α} (h : (expectU32 message len >>= k) = .ok a) :
    len < 2 ^ 32 ∧ k len = .ok a := by
  unfold expectU32 at h
  split at h
  · next hlt => exact ⟨hlt, h⟩
  · cases h

/-- `?` behind `merge_decode_error`. -/
def mergeDecode {α : Type} : Except EncodingError α → Except MergeFault α
  | .ok a => .ok a
  | .error e => .error (.callback e)

theorem mergeDecode_eq_ok {α : Type} {x : Except EncodingError α} {a : α} :
    mergeDecode x = .ok a ↔ x = .ok a := by
  cases x <;> simp [mergeDecode]

section Framed

variable {α : Type} {magic bytes : Bytes} {x : Except EncodingError α} {a : α}

/-- What is read behind a magic. -/
theorem framed_eq_some : (if magic.isPrefixOf bytes then do
      let a ← x
      return some a
    else return none : Except EncodingError (Option α)) = .ok (some a) ↔
      (∃ body, bytes = magic ++ body) ∧ x = .ok a := by
  split
  next h =>
    obtain ⟨body, rfl⟩ := isPrefixOf_iff_prefix.mp h
    rw [except_bind_eq_ok]
    constructor
    · rintro ⟨_, hx, heq⟩
      cases heq
      exact ⟨⟨body, rfl⟩, hx⟩
    · exact fun hx => ⟨a, hx.2, rfl⟩
  next h =>
    constructor
    · exact fun heq => nomatch heq
    · rintro ⟨⟨body, rfl⟩, -⟩
      exact absurd ( isPrefixOf_iff_prefix.mpr (prefix_append _ _)) h

/-- A magic never decodes to a value that is not a delta. -/
theorem framed_ne_none (h : magic.isPrefixOf bytes = true) : (if magic.isPrefixOf bytes then do
      let a ← x
      return some a
    else return none : Except EncodingError (Option α)) ≠ .ok none := by
  rw [if_pos h]
  cases x <;> exact nofun

end Framed

/-- Last-write-wins membership changes for one physical bitmap row. -/
@[ext]
structure BitmapMembershipDelta where
  additions : Finset UInt64
  removals : Finset UInt64
  disjoint : Disjoint additions removals
deriving DecidableEq

variable {bytes : Bytes}

namespace BitmapMembershipDelta

/-- The delta without changes, `BitmapMembershipDelta::default()`. -/
def empty : BitmapMembershipDelta := ⟨∅, ∅, Finset.disjoint_empty_right ∅⟩

/-- The delta that adds the IDs. -/
def fromAdditions (additions : Finset UInt64) : BitmapMembershipDelta :=
  ⟨additions, ∅, Finset.disjoint_empty_right additions⟩

/-- One ID more. -/
def add (delta : BitmapMembershipDelta) (id : UInt64) : BitmapMembershipDelta where
  additions := insert id delta.additions
  removals := delta.removals.erase id
  disjoint := by
    have h := delta.disjoint
    rw [Finset.disjoint_left] at h ⊢
    intro x hx hr
    rw [Finset.mem_erase] at hr
    rcases Finset.mem_insert.mp hx with hid | hadd
    · exact hr.1 hid
    · exact h hadd hr.2

/-- One ID less. -/
def remove (delta : BitmapMembershipDelta) (id : UInt64) : BitmapMembershipDelta where
  additions := delta.additions.erase id
  removals := insert id delta.removals
  disjoint := by
    have h := delta.disjoint
    rw [Finset.disjoint_left] at h ⊢
    intro x hx hr
    rw [Finset.mem_erase] at hx
    rcases Finset.mem_insert.mp hr with hid | hrem
    · exact hx.1 hid
    · exact h hx.2 hrem

/-- Applies a newer delta after this delta. -/
def compose (delta newer : BitmapMembershipDelta) : BitmapMembershipDelta where
  additions := (delta.additions ∪ newer.additions) \ newer.removals
  removals := (delta.removals \ newer.additions) ∪ newer.removals
  disjoint := by
    have h := delta.disjoint
    rw [Finset.disjoint_left] at h ⊢
    intro x hx hr
    simp only [Finset.mem_sdiff, Finset.mem_union] at hx hr
    obtain ⟨hadd, hkept⟩ := hx
    obtain ⟨hrem, hnew⟩ := hr.resolve_right hkept
    exact h (hadd.resolve_right hnew) hrem

/-- The IDs after the delta. -/
def applyTo (delta : BitmapMembershipDelta) (ids : Finset UInt64) : Finset UInt64 :=
  (ids \ delta.removals) ∪ delta.additions

variable {delta : BitmapMembershipDelta}

theorem mem_applyTo {ids : Finset UInt64} {x : UInt64} :
    x ∈ delta.applyTo ids ↔ x ∈ delta.additions ∨ x ∈ ids ∧ x ∉ delta.removals := by
  unfold applyTo
  rw [Finset.mem_union, Finset.mem_sdiff, or_comm]

@[simp] theorem applyTo_empty (ids : Finset UInt64) : empty.applyTo ids = ids := by
  ext x
  simp [mem_applyTo, empty]

/-- **Composing two deltas is applying one after the other.** -/
theorem applyTo_compose (delta newer : BitmapMembershipDelta) (ids : Finset UInt64) :
    (delta.compose newer).applyTo ids = newer.applyTo (delta.applyTo ids) := by
  ext x
  have hnewer : x ∈ newer.additions → x ∉ newer.removals :=
    fun hadd => Finset.disjoint_left.mp newer.disjoint hadd
  simp only [mem_applyTo, compose, Finset.mem_union, Finset.mem_sdiff]
  -- an ID the newer delta mentions is decided by it, any other by the older
  by_cases hadd : x ∈ newer.additions
  · have hkept := hnewer hadd
    tauto
  · by_cases hrem : x ∈ newer.removals <;> tauto

/-- Deltas compose in any grouping. -/
theorem compose_assoc : Std.Associative compose where
  assoc older middle newer := by
    ext x
    · simp only [compose, Finset.mem_union, Finset.mem_sdiff]
      tauto
    · simp only [compose, Finset.mem_union, Finset.mem_sdiff]
      tauto

theorem compose_empty : Std.LawfulIdentity compose empty where
  left_id delta := by
    ext x
    · have hkept : x ∈ delta.additions → x ∉ delta.removals :=
        fun hadd => Finset.disjoint_left.mp delta.disjoint hadd
      simpa [compose, empty] using hkept
    · simp [compose, empty]
  right_id delta := by ext x <;> simp [compose, empty]

/-! ## §3. The frame. -/

/-- `b"HLXRBM2\0"`. -/
def MAGIC : Bytes := [0x48, 0x4C, 0x58, 0x52, 0x42, 0x4D, 0x32, 0x00]

variable (codec : RoaringCodec)

/-- The delta's bytes; a length past `u32` panics. -/
def encode (delta : BitmapMembershipDelta) : Except MergeFault Bytes := do
  let additionsLen ← expectU32 "roaring additions fit u32" (codec.serializedSize delta.additions)
  let removalsLen ← expectU32 "roaring removals fit u32" (codec.serializedSize delta.removals)
  return MAGIC ++ (beBytes U32_LEN additionsLen ++ codec.serialize delta.additions
    ++ (beBytes U32_LEN removalsLen ++ codec.serialize delta.removals))

/-- A length and a bitmap that fills it. -/
def takeDeltaBitmap (total : Nat) (name : String) : Read (Finset UInt64) := do
  let length ← takeU32Be total
  let slice ← takeSlice total length
  match codec.deserialize slice with
  | .error error =>
    throw (.io s!"failed to decode bitmap membership delta {name}: {error}")
  | .ok (bitmap, trailing) => do
    Reader.rejectIf (trailing ≠ [])
      (.custom s!"bitmap membership delta {name} has {trailing.length} trailing bytes")
    return bitmap

/-- The fields behind the magic bytes. -/
def takeBitmaps (total : Nat) : Read (Finset UInt64 × Finset UInt64) := do
  let additions ← takeDeltaBitmap codec total "additions"
  let removals ← takeDeltaBitmap codec total "removals"
  return (additions, removals)

/-- The delta of two bitmaps read from a frame, unless they overlap. -/
def ofBitmaps (additions removals : Finset UInt64) : Except EncodingError BitmapMembershipDelta :=
  if disjoint : Disjoint additions removals then .ok ⟨additions, removals, disjoint⟩
  else .error (.custom "bitmap membership delta additions and removals overlap")

/-- The delta of a frame that starts with the magic. -/
def decodeFrame (bytes : Bytes) : Except EncodingError BitmapMembershipDelta := do
  let (additions, removals) ← Reader.finish
    (fun n => .custom s!"bitmap membership delta has {n} trailing bytes")
    (takeBitmaps codec bytes.length) (bytes.drop MAGIC.length)
  ofBitmaps additions removals

/-- The delta of a frame, `none` for bytes that are not one. -/
def decodeIfDelta (bytes : Bytes) : Except EncodingError (Option BitmapMembershipDelta) :=
  if MAGIC.isPrefixOf bytes then do
    let delta ← decodeFrame codec bytes
    return some delta
  else
    return none

variable {codec}

variable {s t : Bytes} {total : Nat} {ids additions removals : Finset UInt64}

/-- The layout of a frame around two serialized bitmaps. -/
def frame (additions removals : Bytes) : Bytes :=
  MAGIC ++ (beBytes U32_LEN additions.length ++ (additions ++
    (beBytes U32_LEN removals.length ++ removals)))

theorem takeDeltaBitmap_run_ok {name : String} :
    (takeDeltaBitmap codec total name).run s = .ok (ids, t) ↔
      ∃ x, x.length < 2 ^ 32 ∧ s = beBytes U32_LEN x.length ++ (x ++ t) ∧
        codec.deserialize x = .ok (ids, []) := by
  unfold takeDeltaBitmap
  simp only [bind_run_ok, takeU32Be_run_ok, takeSlice_run_ok]
  constructor
  · rintro ⟨len, u, ⟨rfl, hlen⟩, x, v, ⟨rfl, rfl⟩, hread⟩
    cases hx : codec.deserialize x with
    | error error =>
      rw [hx] at hread
      cases hread
    | ok result =>
      rw [hx, bind_run_ok] at hread
      obtain ⟨_, w, hreject, hpure⟩ := hread
      obtain ⟨hempty, rfl⟩ := rejectIf_run_ok.mp hreject
      obtain ⟨rfl, rfl⟩ := pure_run_ok.mp hpure
      refine ⟨x, hlen, rfl, ?_⟩
      rw [hx, ← not_ne_iff.mp hempty]
  · rintro ⟨x, hlen, rfl, hx⟩
    refine ⟨x.length, x ++ t, ⟨rfl, hlen⟩, x, t, ⟨rfl, rfl⟩, ?_⟩
    rw [hx]
    exact bind_run_ok.mpr ⟨(), t, rejectIf_run_ok.mpr ⟨fun h => h rfl, rfl⟩, rfl⟩

theorem takeBitmaps_run_ok :
    (takeBitmaps codec total).run s = .ok ((additions, removals), t) ↔
      ∃ x y, x.length < 2 ^ 32 ∧ y.length < 2 ^ 32 ∧
        s = beBytes U32_LEN x.length ++ (x ++ (beBytes U32_LEN y.length ++ (y ++ t))) ∧
        codec.deserialize x = .ok (additions, []) ∧ codec.deserialize y = .ok (removals, []) := by
  unfold takeBitmaps
  simp only [bind_run_ok, takeDeltaBitmap_run_ok, pure_run_ok, Prod.mk.injEq]
  constructor
  · rintro ⟨_, u, ⟨x, hxlen, rfl, hx⟩, _, v, ⟨y, hylen, rfl, hy⟩, ⟨rfl, rfl⟩, rfl⟩
    exact ⟨x, y, hxlen, hylen, rfl, hx, hy⟩
  · rintro ⟨x, y, hxlen, hylen, rfl, hx, hy⟩
    exact ⟨_, _, ⟨x, hxlen, rfl, hx⟩, _, _, ⟨y, hylen, rfl, hy⟩, ⟨rfl, rfl⟩, rfl⟩

/-- What a written frame is. -/
theorem encode_eq_ok (h : delta.encode codec = .ok bytes) :
    codec.serializedSize delta.additions < 2 ^ 32 ∧
    codec.serializedSize delta.removals < 2 ^ 32 ∧
    bytes = frame (codec.serialize delta.additions) (codec.serialize delta.removals) := by
  obtain ⟨hadd, h⟩ := expectU32_bind_eq_ok h
  obtain ⟨hrem, h⟩ := expectU32_bind_eq_ok h
  exact ⟨hadd, hrem, by rw [← Except.ok.inj h, frame, ← append_assoc (beBytes _ _)]; rfl⟩

theorem decodeIfDelta_of_magic (h : MAGIC.isPrefixOf bytes = true) :
    decodeIfDelta codec bytes = some <$> decodeFrame codec bytes := by
  unfold decodeIfDelta
  rw [if_pos h]
  rfl

theorem decodeIfDelta_of_not_magic (h : ¬ MAGIC.isPrefixOf bytes = true) :
    decodeIfDelta codec bytes = .ok none := by
  unfold decodeIfDelta
  rw [if_neg h]
  rfl

/-- A written frame starts with the magic. -/
theorem magic_isPrefixOf_encode
    (h : delta.encode codec = .ok bytes) : MAGIC.isPrefixOf bytes = true := by
  obtain ⟨-, -, rfl⟩ := encode_eq_ok h
  exact isPrefixOf_iff_prefix.mpr (prefix_append _ _)

/-- **A delta is decoded from its frame only**: both bitmaps fill their slices and
nothing follows them. -/
theorem decodeIfDelta_eq_some :
    decodeIfDelta codec bytes = .ok (some delta) ↔
      ∃ x y, x.length < 2 ^ 32 ∧ y.length < 2 ^ 32 ∧ bytes = frame x y ∧
        codec.deserialize x = .ok (delta.additions, []) ∧
        codec.deserialize y = .ok (delta.removals, []) := by
  simp only [decodeIfDelta, framed_eq_some, decodeFrame, except_bind_eq_ok, finish_eq_ok]
  constructor
  · rintro ⟨⟨body, rfl⟩, sets, hread, hsets⟩
    rw [drop_left] at hread
    obtain ⟨x, y, hxlen, hylen, rfl, hx, hy⟩ := takeBitmaps_run_ok.mp hread
    unfold ofBitmaps at hsets
    split at hsets
    · cases hsets
      exact ⟨x, y, hxlen, hylen, by rw [append_nil]; rfl, hx, hy⟩
    · exact nomatch hsets
  · rintro ⟨x, y, hxlen, hylen, rfl, hx, hy⟩
    refine ⟨⟨_, rfl⟩, (delta.additions, delta.removals), ?_, dif_pos delta.disjoint⟩
    refine takeBitmaps_run_ok.mpr ⟨x, y, hxlen, hylen, ?_, hx, hy⟩
    rw [frame, drop_left, append_nil]

/-- **Every frame written is read back.** -/
theorem decodeIfDelta_encode (h : codec.Lossless)
    (hbytes : delta.encode codec = .ok bytes) : decodeIfDelta codec bytes = .ok (some delta) := by
  obtain ⟨hadd, hrem, rfl⟩ := encode_eq_ok hbytes
  exact decodeIfDelta_eq_some.mpr ⟨_, _, hadd, hrem, rfl, h.deserialize_serialize_nil _,
    h.deserialize_serialize_nil _⟩

/-- A shard count never looks like the magic, so a serialized bitmap is not
taken for a frame. -/
theorem not_magic_serialize (h : codec.Lossless) (ids : Finset UInt64) :
    ¬ MAGIC.isPrefixOf (codec.serialize ids) = true := by
  obtain ⟨shards, body, hshards, hbytes⟩ := h.shard_count ids
  intro hmagic
  rw [hbytes, List.isPrefixOf_iff_prefix, List.prefix_iff_eq_take] at hmagic
  have htake : (leBytes 8 shards ++ body).take MAGIC.length = leBytes 8 shards :=
    List.take_left' (leBytes_length 8 shards)
  have hvalue : ofLe MAGIC = shards := by
    rw [hmagic, htake, ofLe_leBytes 8 shards (by omega)]
  have hlarge : 2 ^ 32 < ofLe MAGIC := by decide
  omega

end BitmapMembershipDelta

end HelixDb.Membership
