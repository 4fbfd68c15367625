/-
  HelixDb.Membership.Portable

  **THE PORTABLE FORMAT OF A ROARING TREEMAP.**

  The bitmaps come from the `roaring` crate.  A treemap has one shard for each
  32-bit high part of its IDs, a shard one container for each 16-bit middle
  part, and a container is a sorted array of at most 4096 low parts or a bitmap
  of 8192 bytes.  Run containers exist only after a call of `optimize`, which
  only tests make.  Of the crate's checks on foreign bytes, the cookie's is
  modelled.

    • `portableCodec_lossless` — what is written is read back,
    • `serializedSize_of_alone` — an ID that is alone in its shard takes 22 bytes.
-/
import HelixDb.Membership.BitmapDelta
import Mathlib.Combinatorics.Colex

namespace HelixDb.Membership.Portable

open HelixDb.Lib List
open Reads (bind_nil bind')

/-! ## §1. Blocks of numbers. -/

section Blocks

variable {width : Nat} {s : Finset Nat} {p : Nat × Finset Nat}

/-- The members of block `k`, as offsets in the block. -/
def block (width : Nat) (s : Finset Nat) (k : Nat) : Finset Nat :=
  (s.filter (· / 2 ^ width = k)).image (· % 2 ^ width)

/-- The blocks of `2 ^ width` numbers that a set reaches, ascending. -/
def blocks (width : Nat) (s : Finset Nat) : List (Nat × Finset Nat) :=
  ((s.image (· / 2 ^ width)).sort (· ≤ ·)).map fun k => (k, block width s k)

/-- The set of which blocks are given. -/
def join (width : Nat) (parts : List (Nat × Finset Nat)) : Finset Nat :=
  parts.toFinset.biUnion fun p => p.2.image (p.1 * 2 ^ width + ·)

theorem mem_blocks : p ∈ blocks width s ↔
    (∃ x ∈ s, x / 2 ^ width = p.1) ∧ p.2 = block width s p.1 := by
  unfold blocks
  rw [mem_map]
  constructor
  · rintro ⟨k, hk, rfl⟩
    exact ⟨Finset.mem_image.mp ((Finset.mem_sort _).mp hk), rfl⟩
  · rintro ⟨hk, hp⟩
    exact ⟨p.1, (Finset.mem_sort _).mpr (Finset.mem_image.mpr hk), Prod.ext rfl hp.symm⟩

theorem mem_block {k l : Nat} :
    l ∈ block width s k ↔ ∃ x ∈ s, x / 2 ^ width = k ∧ x % 2 ^ width = l := by
  simp [block, and_assoc]

theorem join_blocks : join width (blocks width s) = s := by
  ext x
  simp only [join, Finset.mem_biUnion, mem_toFinset, Finset.mem_image]
  constructor
  · rintro ⟨p, hp, l, hl, rfl⟩
    rw [(mem_blocks.mp hp).2] at hl
    obtain ⟨y, hy, hdiv, hmod⟩ := mem_block.mp hl
    rwa [← hdiv, ← hmod, Nat.div_add_mod']
  · intro hx
    refine ⟨(x / 2 ^ width, block width s (x / 2 ^ width)),
      mem_blocks.mpr ⟨⟨x, hx, rfl⟩, rfl⟩, x % 2 ^ width, ?_, ?_⟩
    · exact mem_block.mpr ⟨x, hx, rfl, rfl⟩
    · exact Nat.div_add_mod' x _

theorem lt_of_mem_blocks {n : Nat} (h : ∀ x ∈ s, x < 2 ^ (n + width)) (hp : p ∈ blocks width s) :
    p.1 < 2 ^ n := by
  obtain ⟨⟨x, hx, hdiv⟩, -⟩ := mem_blocks.mp hp
  rw [← hdiv, Nat.div_lt_iff_lt_mul (Nat.two_pow_pos width), ← pow_add]
  exact h x hx

theorem lt_of_mem_block (hp : p ∈ blocks width s) : ∀ l ∈ p.2, l < 2 ^ width := by
  intro l hl
  rw [(mem_blocks.mp hp).2] at hl
  obtain ⟨x, -, -, rfl⟩ := mem_block.mp hl
  exact Nat.mod_lt _ (Nat.two_pow_pos width)

/-- A block that is reached has members, at most `2 ^ width` of them. -/
theorem card_of_mem_blocks (hp : p ∈ blocks width s) : 0 < p.2.card ∧ p.2.card ≤ 2 ^ width := by
  constructor
  · obtain ⟨⟨x, hx, hdiv⟩, heq⟩ := mem_blocks.mp hp
    rw [heq]
    exact Finset.card_pos.mpr ⟨_, mem_block.mpr ⟨x, hx, hdiv, rfl⟩⟩
  · have hsub : p.2 ⊆ Finset.range (2 ^ width) :=
      fun l hl => Finset.mem_range.mpr (lt_of_mem_block hp l hl)
    exact (Finset.card_le_card hsub).trans_eq (Finset.card_range _)

theorem length_blocks : (blocks width s).length = (s.image (· / 2 ^ width)).card := by
  rw [blocks, length_map, Finset.length_sort]

theorem length_blocks_le {n : Nat} (h : ∀ x ∈ s, x < 2 ^ (n + width)) :
    (blocks width s).length ≤ 2 ^ n := by
  have hsub : s.image (· / 2 ^ width) ⊆ Finset.range (2 ^ n) := by
    intro k hk
    obtain ⟨x, hx, rfl⟩ := Finset.mem_image.mp hk
    rw [Finset.mem_range, Nat.div_lt_iff_lt_mul (Nat.two_pow_pos width), ← pow_add]
    exact h x hx
  rw [length_blocks]
  exact (Finset.card_le_card hsub).trans_eq (Finset.card_range _)

end Blocks

/-! ## §2. Writing and reading. -/

/-- A little-endian number. -/
def takeLe (width : Nat) : Reader String Nat := do
  let bytes ← Reader.takeRaw (fun _ _ => "failed to fill whole buffer") width
  return ofLe bytes

theorem takeLe_reads {width n : Nat} (h : n < 256 ^ width) :
    Reads (takeLe width) (leBytes width n) n 0 := fun _ _ =>
  (Reader.takeNat_run_ok leBytes_length ofLe_lt leBytes_ofLe ofLe_leBytes).mpr ⟨rfl, h⟩

/-- The most values an array container holds. -/
def ARRAY_LIMIT : Nat := 4096

/-- The low parts of one container. -/
def putContainer (low : Finset Nat) : Bytes :=
  if low.card ≤ ARRAY_LIMIT then (low.sort (· ≤ ·)).flatMap (leBytes 2)
  else leBytes 8192 (∑ x ∈ low, 2 ^ x)

/-- A container of `card` values. -/
def takeContainer (card : Nat) : Reader String (Finset Nat) :=
  if card ≤ ARRAY_LIMIT then do
    let low ← (List.replicate card ()).mapM fun _ => takeLe 2
    return low.toFinset
  else do
    let bits ← takeLe 8192
    return bits.bitIndices.toFinset

/-- Where the containers start, counted from the cookie. -/
def putOffsets (start : Nat) : List (Nat × Finset Nat) → Bytes
  | [] => []
  | p :: ps => leBytes 4 start ++ putOffsets (start + (putContainer p.2).length) ps

/-- The cookie of a bitmap without run containers. -/
def SERIAL_COOKIE_NO_RUNCONTAINER : Nat := 12346

/-- One shard: its containers' keys and cardinalities, their offsets, and the
containers themselves. -/
def putBitmap (s : Finset Nat) : Bytes :=
  leBytes 4 SERIAL_COOKIE_NO_RUNCONTAINER ++ (leBytes 4 (blocks 16 s).length ++
    ((blocks 16 s).flatMap (fun p => leBytes 2 p.1 ++ leBytes 2 (p.2.card - 1)) ++
      (putOffsets (8 + 8 * (blocks 16 s).length) (blocks 16 s) ++
        (blocks 16 s).flatMap fun p => putContainer p.2)))

/-- The key and the cardinality of one container. -/
def takeDescription : Reader String (Nat × Nat) := do
  let key ← takeLe 2
  let last ← takeLe 2
  return (key, last + 1)

/-- A key and what it is the key of. -/
def takeKeyed (key : Reader String Nat) (part : Reader String (Finset Nat)) :
    Reader String (Nat × Finset Nat) := do
  let k ← key
  let s ← part
  return (k, s)

/-- A bitmap: its descriptions, the offsets, which are skipped, and its containers. -/
def takeBitmap : Reader String (Finset Nat) := do
  let cookie ← takeLe 4
  Reader.rejectIf (cookie ≠ SERIAL_COOKIE_NO_RUNCONTAINER) "unknown cookie value"
  let count ← takeLe 4
  let descriptions ← (List.replicate count ()).mapM fun _ => takeDescription
  let _offsets ← Reader.takeRaw (fun _ _ => "failed to fill whole buffer") (4 * count)
  let containers ← descriptions.mapM fun d => takeKeyed (return d.1) (takeContainer d.2)
  return join 16 containers

/-- A treemap: the number of its shards, and each behind its high half. -/
def putTreemap (s : Finset Nat) : Bytes :=
  leBytes 8 (blocks 32 s).length ++ (blocks 32 s).flatMap fun p => leBytes 4 p.1 ++ putBitmap p.2

/-- A treemap is read shard by shard. -/
def takeTreemap : Reader String (Finset Nat) := do
  let count ← takeLe 8
  let shards ← (List.replicate count ()).mapM fun _ => takeKeyed (takeLe 4) takeBitmap
  return join 32 shards

/-- The portable format for the IDs of this repository. -/
def portableCodec : RoaringCodec where
  serialize ids := putTreemap (ids.image UInt64.toNat)
  deserialize bytes := do
    let (s, rest) ← takeTreemap.run bytes
    return (s.image UInt64.ofNat, rest)

/-! ## §3. What is written is read back. -/

variable {s : Finset Nat}

theorem takeContainer_reads {low : Finset Nat} (h : ∀ x ∈ low, x < 2 ^ 16) :
    Reads (takeContainer low.card) (putContainer low) low 0 := by
  unfold takeContainer putContainer
  split
  · have hread := Reads.replicate (takeLe 2) (leBytes 2) (low.sort (· ≤ ·))
      fun x hx => takeLe_reads (h x ((Finset.mem_sort _).mp hx))
    rw [Finset.length_sort] at hread
    refine bind_nil hread ?_ (le_refl 0)
    rw [Finset.sort_toFinset]
    exact Reads.pure low
  · have hbits : ∑ x ∈ low, 2 ^ x < 256 ^ 8192 := by
      have hsum := Nat.geomSum_lt (le_refl 2) h
      exact hsum.trans_eq (pow_mul 2 8 8192)
    refine bind_nil (takeLe_reads hbits) ?_ (le_refl 0)
    rw [Finset.toFinset_bitIndices_sum_two_pow]
    exact Reads.pure low

theorem length_putOffsets (ps : List (Nat × Finset Nat)) :
    ∀ start, (putOffsets start ps).length = 4 * ps.length := by
  induction ps with
  | nil => intro start; rfl
  | cons p ps ih =>
    intro start
    rw [putOffsets, length_append, leBytes_length, ih, length_cons]
    omega

theorem takeKeyed_reads {key : Reader String Nat} {part : Reader String (Finset Nat)}
    {bs cs : Bytes} {k : Nat} (hkey : Reads key bs k 0) (hpart : Reads part cs s 0) :
    Reads (takeKeyed key part) (bs ++ cs) (k, s) 0 :=
  bind' hkey (bind_nil hpart (Reads.pure _) (le_refl 0))

theorem takeBitmap_reads (h : ∀ x ∈ s, x < 2 ^ 32) : Reads takeBitmap (putBitmap s) s 0 := by
  have hcount : (blocks 16 s).length < 256 ^ 4 :=
    (length_blocks_le (n := 16) h).trans_lt (by decide)
  refine bind' (takeLe_reads (by decide)) (Reads.rejectIf_bind (not_not.mpr rfl) ?_)
  refine bind' (takeLe_reads hcount) ?_
  -- the descriptions say how many low parts to expect in each container
  have hdescription : ∀ d ∈ (blocks 16 s).map fun p => (p.1, p.2.card),
      Reads takeDescription (leBytes 2 d.1 ++ leBytes 2 (d.2 - 1)) d 0 := by
    intro d hd
    obtain ⟨p, hp, rfl⟩ := mem_map.mp hd
    obtain ⟨hpos, hcard⟩ := card_of_mem_blocks hp
    have hlast : p.2.card - 1 < 256 ^ 2 := by omega
    refine bind' (takeLe_reads (lt_of_mem_blocks (n := 16) h hp))
      (bind_nil (takeLe_reads hlast) ?_ (le_refl 0))
    rw [Nat.sub_add_cancel hpos]
    exact Reads.pure _
  have hdescriptions := Reads.replicate _ _ _ hdescription
  rw [length_map, flatMap_map] at hdescriptions
  refine bind' hdescriptions (bind' (fun rest _ => Reader.takeRaw_run_ok.mpr
    ⟨rfl, length_putOffsets _ _⟩) ?_)
  have hcontainers : Reads (((blocks 16 s).map fun p => (p.1, p.2.card)).mapM fun d =>
      takeKeyed (return d.1) (takeContainer d.2))
      ((blocks 16 s).flatMap fun p => putContainer p.2) (blocks 16 s) 0 := by
    refine Reads.mapM (forall₂_map_left_iff.mpr (forall₂_same.mpr fun p hp => ?_))
    exact takeKeyed_reads (Reads.pure p.1) (takeContainer_reads (lt_of_mem_block hp))
  refine bind_nil hcontainers ?_ (le_refl 0)
  rw [join_blocks]
  exact Reads.pure s

theorem takeTreemap_reads (h : ∀ x ∈ s, x < 2 ^ 64) : Reads takeTreemap (putTreemap s) s 0 := by
  have hcount : (blocks 32 s).length < 256 ^ 8 :=
    (length_blocks_le (n := 32) h).trans_lt (by decide)
  have hshards := Reads.replicate (takeKeyed (takeLe 4) takeBitmap)
    (fun p => leBytes 4 p.1 ++ putBitmap p.2) (blocks 32 s) fun p hp =>
      takeKeyed_reads (takeLe_reads (lt_of_mem_blocks (n := 32) h hp))
        (takeBitmap_reads (lt_of_mem_block hp))
  refine bind' (takeLe_reads hcount) (bind_nil hshards ?_ (le_refl 0))
  rw [join_blocks]
  exact Reads.pure s

theorem lt_of_mem_image (ids : Finset UInt64) : ∀ x ∈ ids.image UInt64.toNat, x < 2 ^ 64 := by
  intro x hx
  obtain ⟨id, -, rfl⟩ := Finset.mem_image.mp hx
  exact id.toNat_lt

/-- **The portable format is lossless.** -/
theorem portableCodec_lossless : portableCodec.Lossless where
  deserialize_serialize ids rest := by
    have hread := takeTreemap_reads (lt_of_mem_image ids) rest (Nat.zero_le _)
    show (takeTreemap.run (putTreemap (ids.image UInt64.toNat) ++ rest) >>= _) = _
    rw [hread]
    show Except.ok ((ids.image UInt64.toNat).image UInt64.ofNat, rest) = _
    rw [Finset.image_image, show UInt64.ofNat ∘ UInt64.toNat = id from
      funext fun id => UInt64.ofNat_toNat, Finset.image_id]
  shard_count ids := ⟨_, _, length_blocks_le (n := 32) (lt_of_mem_image ids), rfl⟩

/-! ## §4. IDs that are alone in their shards. -/

theorem length_putBitmap_singleton (x : Nat) : (putBitmap {x}).length = 18 := by
  have hblocks : blocks 16 {x} = [(x / 2 ^ 16, {x % 2 ^ 16})] := by
    simp [blocks, block, Finset.filter_singleton]
  have hcontainer : ∀ low : Nat, (putContainer {low}).length = 2 := by
    simp [putContainer, ARRAY_LIMIT]
  simp [putBitmap, hblocks, length_putOffsets, hcontainer]

theorem length_putTreemap_of_alone (h : Set.InjOn (· / 2 ^ 32) (s : Set Nat)) :
    (putTreemap s).length = 8 + 22 * s.card := by
  have halone : ∀ p ∈ blocks 32 s, (leBytes 4 p.1 ++ putBitmap p.2).length = 22 := by
    intro p hp
    obtain ⟨⟨x, hx, hdiv⟩, hblock⟩ := mem_blocks.mp hp
    have hsingle : p.2 = {x % 2 ^ 32} := by
      ext l
      rw [hblock, mem_block, Finset.mem_singleton]
      constructor
      · rintro ⟨y, hy, hdiv', rfl⟩
        rw [h hy hx (hdiv'.trans hdiv.symm)]
      · rintro rfl
        exact ⟨x, hx, hdiv, rfl⟩
    rw [hsingle, length_append, leBytes_length, length_putBitmap_singleton]
  rw [putTreemap, length_append, leBytes_length, length_flatMap, map_congr_left halone,
    map_const', sum_replicate_nat, length_blocks, Finset.card_image_of_injOn h, Nat.mul_comm]

/-- An ID alone in its shard takes its shard's key, header and one low part. -/
theorem serializedSize_of_alone {ids : Finset UInt64}
    (h : Set.InjOn (fun id : UInt64 => id.toNat / 2 ^ 32) (ids : Set UInt64)) :
    portableCodec.serializedSize ids = 8 + 22 * ids.card := by
  have hinj : Set.InjOn UInt64.toNat (ids : Set UInt64) :=
    fun x _ y _ heq => UInt64.toNat_inj.mp heq
  have halone : Set.InjOn (· / 2 ^ 32) ((ids.image UInt64.toNat : Finset Nat) : Set Nat) := by
    rw [Finset.coe_image]
    rintro _ ⟨x, hx, rfl⟩ _ ⟨y, hy, rfl⟩ heq
    rw [h hx hy heq]
  show (putTreemap (ids.image UInt64.toNat)).length = _
  rw [length_putTreemap_of_alone halone, Finset.card_image_of_injOn hinj]

/-- The first IDs of the shards from `start` to before `stop`. -/
def shardIds (start stop : Nat) : Finset UInt64 :=
  (Finset.Ico start stop).image fun k => UInt64.ofNat (k * 2 ^ 32)

section ShardIds

variable {start middle stop : Nat}

theorem toNat_shardId (h : stop ≤ 2 ^ 32) {k : Nat} (hk : k ∈ Finset.Ico start stop) :
    (UInt64.ofNat (k * 2 ^ 32)).toNat = k * 2 ^ 32 := by
  have hlt : k < stop := (Finset.mem_Ico.mp hk).2
  exact UInt64.toNat_ofNat_of_lt' (by show k * 2 ^ 32 < 2 ^ 64; omega)

/-- The IDs of shards take 22 bytes each. -/
theorem serializedSize_shardIds (h : stop ≤ 2 ^ 32) :
    portableCodec.serializedSize (shardIds start stop) = 8 + 22 * (stop - start) := by
  have hinj : Set.InjOn (fun k => UInt64.ofNat (k * 2 ^ 32))
      (Finset.Ico start stop : Set Nat) := by
    intro m hm n hn heq
    have hnat := congrArg UInt64.toNat heq
    rw [toNat_shardId h hm, toNat_shardId h hn] at hnat
    omega
  have halone : Set.InjOn (fun id : UInt64 => id.toNat / 2 ^ 32)
      (shardIds start stop : Set UInt64) := by
    rw [shardIds, Finset.coe_image]
    rintro _ ⟨m, hm, rfl⟩ _ ⟨n, hn, rfl⟩ heq
    have heq : (UInt64.ofNat (m * 2 ^ 32)).toNat / 2 ^ 32
      = (UInt64.ofNat (n * 2 ^ 32)).toNat / 2 ^ 32 := heq
    rw [toNat_shardId h hm, toNat_shardId h hn] at heq
    rw [show m = n by omega]
  rw [serializedSize_of_alone halone, shardIds, Finset.card_image_of_injOn hinj, Nat.card_Ico]

theorem shardIds_ne_empty (h : start < stop) (h' : stop ≤ 2 ^ 32) : shardIds start stop ≠ ∅ := by
  intro hempty
  have hsize := @serializedSize_shardIds start _ h'
  have hnone : portableCodec.serializedSize ∅ = 8 := by decide +kernel
  rw [hempty, hnone] at hsize
  omega

theorem shardIds_union (h : start ≤ middle) (h' : middle ≤ stop) :
    shardIds start middle ∪ shardIds middle stop = shardIds start stop := by
  unfold shardIds
  rw [← Finset.image_union, Finset.Ico_union_Ico_eq_Ico h h']

end ShardIds

end HelixDb.Membership.Portable
