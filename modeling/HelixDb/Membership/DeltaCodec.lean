/-
  HelixDb.Membership.DeltaCodec

  **WHAT THE MEMBERSHIP DECODERS ACCEPT.**

  A frame with trailing bytes, or with an ID in both of its bitmaps, is rejected.
  The three readers of an adjacency row agree on every row the full one accepts.

    • `BitmapMembershipDelta.decodeIfDelta_rejects`,
    • `AdjacencyMembershipDelta.decodeIfDelta_rejects`,
    • `decodeEdges_parts` — one direction alone is that direction of the row,
    • `membership_deltas_lawful` — round trip, disjointness, composition and
      rejection together.
-/
import HelixDb.Membership.Row

namespace HelixDb.Membership

open HelixDb.Lib HelixDb.Encoding Portable Reader List
open AdjacencyMembershipDelta (decodeIfDelta applyTo_compose decodeIfDelta_encode)

variable {codec : RoaringCodec}

/-! ## §1. Bitmap deltas. -/

variable {t s x y bytes rest out middle : Bytes} {total m n : Nat}

/-- A length prefix fixes the slice behind it. -/
theorem prefixed_inj {encode : Nat → Nat → Bytes} (hlength : ∀ w n, (encode w n).length = w)
    (hinj : ∀ {m n}, m < 2 ^ 32 → n < 2 ^ 32 → encode U32_LEN m = encode U32_LEN n → m = n) (hx : x.length < 2 ^ 32) (hy : y.length < 2 ^ 32)
    (h : encode U32_LEN x.length ++ (x ++ s) = encode U32_LEN y.length ++ (y ++ t)) :
    x = y ∧ s = t := by
  obtain ⟨hlen, hrest⟩ := append_inj h ((hlength _ _).trans (hlength _ _).symm)
  exact append_inj hrest (hinj hx hy hlen)

theorem beBytes_u32_inj (hm : m < 2 ^ 32) (hn : n < 2 ^ 32)
    (h : beBytes U32_LEN m = beBytes U32_LEN n) : m = n := beBytes_inj hm hn h

theorem leBytes_u32_inj (hm : m < 2 ^ 32) (hn : n < 2 ^ 32)
    (h : leBytes U32_LEN m = leBytes U32_LEN n) : m = n :=
  beBytes_inj hm hn (reverse_injective h)

variable {delta : BitmapMembershipDelta} {ids additions removals : Finset UInt64}

namespace BitmapMembershipDelta

/-- **Overlapping sets and trailing bytes are rejected**, whether they trail a bitmap
in its slice or the whole frame. -/
theorem decodeIfDelta_rejects {x y rest t u : Bytes}
    (hxlen : x.length < 2 ^ 32) (hylen : y.length < 2 ^ 32)
    (hx : codec.deserialize x = .ok (additions, t)) (hy : codec.deserialize y = .ok (removals, u))
    (h : ¬ Disjoint additions removals ∨ t ≠ [] ∨ u ≠ [] ∨ rest ≠ []) :
    ∃ e, decodeIfDelta codec (frame x y ++ rest) = .error e := by
  have hframe : frame x y ++ rest = MAGIC ++ (beBytes U32_LEN x.length ++ (x ++
      (beBytes U32_LEN y.length ++ (y ++ rest)))) := by
    simp [frame]
  generalize hdecode : decodeIfDelta codec _ = decoded
  rw [hframe] at hdecode
  cases decoded with
  | error e => exact ⟨e, rfl⟩
  | ok found =>
    cases found with
    | none =>
      exact absurd hdecode (framed_ne_none ( isPrefixOf_iff_prefix.mpr (prefix_append _ _)))
    | some delta =>
      -- The slices of the frame are the ones it was decoded from.
      obtain ⟨x', y', hxlen', hylen', heq, hx', hy'⟩ := decodeIfDelta_eq_some.mp hdecode
      obtain ⟨rfl, hbody⟩ :=
        prefixed_inj beBytes_length beBytes_u32_inj hxlen hxlen' (append_cancel_left heq)
      have hbody' : beBytes U32_LEN y.length ++ (y ++ rest) =
          beBytes U32_LEN y'.length ++ (y' ++ []) := by
        rwa [append_nil]
      obtain ⟨rfl, rfl⟩ := prefixed_inj beBytes_length beBytes_u32_inj hylen hylen' hbody'
      rw [hx] at hx'
      rw [hy] at hy'
      cases hx'
      cases hy'
      rcases h with hoverlap | hne | hne | hne
      · exact absurd delta.disjoint hoverlap
      all_goals exact absurd rfl hne

/-- Writing succeeds exactly when both length prefixes hold their lengths. -/
theorem encode_ok_iff :
    (∃ bytes, delta.encode codec = .ok bytes) ↔
      codec.serializedSize delta.additions < 2 ^ 32 ∧
        codec.serializedSize delta.removals < 2 ^ 32 := by
  constructor
  · rintro ⟨bytes, h⟩
    obtain ⟨hadd, hrem, -⟩ := encode_eq_ok h
    exact ⟨hadd, hrem⟩
  · rintro ⟨hadd, hrem⟩
    unfold encode expectU32
    rw [if_pos hadd, if_pos hrem]
    exact ⟨_, rfl⟩

/-- One change of a bitmap delta. -/
inductive Change where
  | add (id : UInt64)
  | remove (id : UInt64)
deriving DecidableEq

/-- One change of the delta. -/
def change (delta : BitmapMembershipDelta) : Change → BitmapMembershipDelta
  | .add id => delta.add id
  | .remove id => delta.remove id

/-- The delta that a sequence of calls builds. -/
def build (changes : List Change) : BitmapMembershipDelta := changes.foldl change empty

end BitmapMembershipDelta

/-! ## §2. Adjacency deltas. -/

namespace AdjacencyMembershipDelta

/-- **Trailing bytes and malformed directions are rejected.** -/
theorem decodeIfDelta_rejects {reset : UInt8} (hxlen : x.length < 2 ^ 32)
    (hylen : y.length < 2 ^ 32)
    (h : (∀ delta, BitmapMembershipDelta.decodeIfDelta codec x ≠ .ok (some delta)) ∨
      (∀ delta, BitmapMembershipDelta.decodeIfDelta codec y ≠ .ok (some delta)) ∨ rest ≠ []) :
    ∃ e, decodeIfDelta codec (frame reset x y ++ rest) = .error e := by
  have hframe : frame reset x y ++ rest = MAGIC ++ (reset :: (leBytes U32_LEN x.length ++ (x ++
      (leBytes U32_LEN y.length ++ (y ++ rest))))) := by
    simp [frame]
  generalize hdecode : decodeIfDelta codec _ = decoded
  rw [hframe] at hdecode
  cases decoded with
  | error e => exact ⟨e, rfl⟩
  | ok found =>
    cases found with
    | none =>
      exact absurd hdecode (framed_ne_none ( isPrefixOf_iff_prefix.mpr (prefix_append _ _)))
    | some delta =>
      obtain ⟨x', y', hxlen', hylen', heq, hx', hy'⟩ := decodeIfDelta_eq_some.mp hdecode
      have hbody := (List.cons.inj (append_cancel_left heq)).2
      obtain ⟨rfl, htail⟩ := prefixed_inj leBytes_length leBytes_u32_inj hxlen hxlen' hbody
      have htail' : leBytes U32_LEN y.length ++ (y ++ rest) =
          leBytes U32_LEN y'.length ++ (y' ++ []) := by
        rwa [append_nil]
      obtain ⟨rfl, rfl⟩ := prefixed_inj leBytes_length leBytes_u32_inj hylen hylen' htail'
      rcases h with hout | hin | hne
      · exact absurd hx' (hout delta.outgoing)
      · exact absurd hy' (hin delta.incoming)
      · exact absurd rfl hne

/-- The bytes of a bitmap delta's frame. -/
def frameSize (codec : RoaringCodec) (delta : BitmapMembershipDelta) : Nat :=
  BitmapMembershipDelta.MAGIC.length + 2 * U32_LEN + codec.serializedSize delta.additions +
    codec.serializedSize delta.removals

theorem length_of_encode
    (h : delta.encode codec = .ok bytes) : bytes.length = frameSize codec delta := by
  obtain ⟨-, -, rfl⟩ := BitmapMembershipDelta.encode_eq_ok h
  simp only [BitmapMembershipDelta.frame, length_append, beBytes_length, frameSize,
    RoaringCodec.serializedSize]
  omega

/-- Writing succeeds exactly when both length prefixes hold their lengths. -/
theorem encode_ok_iff {delta : AdjacencyMembershipDelta} :
    (∃ bytes, delta.encode codec = .ok bytes) ↔
      frameSize codec delta.outgoing < 2 ^ 32 ∧ frameSize codec delta.incoming < 2 ^ 32 := by
  constructor
  · rintro ⟨bytes, h⟩
    obtain ⟨outgoing, incoming, hout, hin, houtLen, hinLen, -⟩ := encode_eq_ok h
    exact ⟨length_of_encode hout ▸ houtLen, length_of_encode hin ▸ hinLen⟩
  · rintro ⟨hout, hin⟩
    have hfits : ∀ d, frameSize codec d < 2 ^ 32 → ∃ bytes, d.encode codec = .ok bytes := by
      intro d hd
      unfold frameSize at hd
      exact BitmapMembershipDelta.encode_ok_iff.mpr ⟨by omega, by omega⟩
    obtain ⟨outgoing, houtgoing⟩ := hfits _ hout
    obtain ⟨incoming, hincoming⟩ := hfits _ hin
    unfold encode expectU32
    rw [houtgoing, hincoming]
    show ∃ bytes, (if outgoing.length < 2 ^ 32 then _ else _ : Except MergeFault Nat) >>= _ = _
    rw [if_pos (length_of_encode houtgoing ▸ hout), if_pos (length_of_encode hincoming ▸ hin)]
    exact ⟨_, rfl⟩

/-- One change of an adjacency delta. -/
inductive Change where
  | addOut (neighbor : UInt64)
  | removeOut (neighbor : UInt64)
  | addIn (neighbor : UInt64)
  | removeIn (neighbor : UInt64)
  | resetOut
deriving DecidableEq

/-- One change of the delta. -/
def change (delta : AdjacencyMembershipDelta) : Change → AdjacencyMembershipDelta
  | .addOut neighbor => delta.addOut neighbor
  | .removeOut neighbor => delta.removeOut neighbor
  | .addIn neighbor => delta.addIn neighbor
  | .removeIn neighbor => delta.removeIn neighbor
  | .resetOut => delta.setResetOut

/-- The delta that a sequence of calls builds. -/
def build (changes : List Change) : AdjacencyMembershipDelta := changes.foldl change empty

end AdjacencyMembershipDelta

/-! ## §3. The readers of an adjacency row. -/

/-- A plain row: the type byte, then both directions, each with what its slice holds
beyond the bitmap. -/
theorem takeEdges_run_ok {edges : Edges}
    (h : (takeEdges codec total).run s = .ok (edges, t)) :
    ∃ out, s = ENCODING_TYPE_NONE :: out ∧ ∃ middle,
      (takeEdgeBitmap codec total).run out = .ok (edges.nxtsOut, middle) ∧
        (takeEdgeBitmap codec total).run middle = .ok (edges.nxtsIn, t) := by
  unfold takeEdges at h
  simp only [bind_run_ok, takeU8_run_ok, rejectIf_run_ok, pure_run_ok] at h
  obtain ⟨kind, u, rfl, _, v, ⟨hkind, rfl⟩, out, w, hout, inc, z, hin, rfl, rfl⟩ := h
  rw [not_ne_iff.mp hkind]
  exact ⟨_, rfl, _, hout, hin⟩

theorem takeOutEdges_run (h : (takeEdgeBitmap codec total).run out = .ok (ids, middle)) :
    (takeOutEdges codec total).run (ENCODING_TYPE_NONE :: out) = .ok (⟨ids, ∅⟩, middle) := by
  unfold takeOutEdges
  simp only [bind_run_ok, takeU8_run_ok, rejectIf_run_ok, pure_run_ok]
  exact ⟨_, out, rfl, (), out, ⟨fun hne => hne rfl, rfl⟩, ids, middle, h, rfl, rfl⟩

/-- The incoming side lies behind the slice that the outgoing prefix announces. -/
theorem takeInEdges_run {ids ids' : Finset UInt64}
    (h : (takeEdgeBitmap codec total).run out = .ok (ids, middle))
    (h' : (takeEdgeBitmap codec total).run middle = .ok (ids', rest)) :
    (takeInEdges codec total).run (ENCODING_TYPE_NONE :: out) = .ok (⟨∅, ids'⟩, rest) := by
  obtain ⟨x, u, hlen, rfl, -⟩ := takeEdgeBitmap_run_ok.mp h
  have hskip : (skipTo total x.length).run (x ++ middle) = .ok ((), middle) :=
    bind_run_ok.mpr ⟨x, middle, takeRaw_run_ok.mpr ⟨rfl, rfl⟩, rfl⟩
  unfold takeInEdges
  simp only [bind_run_ok, takeU8_run_ok, rejectIf_run_ok, takeU32Le_run_ok,
    pure_run_ok]
  exact ⟨_, _, rfl, (), _, ⟨fun hne => hne rfl, rfl⟩, x.length, _, ⟨rfl, hlen⟩, (), middle, hskip,
    ids', rest, h', rfl, rfl⟩

/-- **One direction alone is that direction of the row.** -/
theorem decodeEdges_parts {data : Bytes} {edges : Edges} (h : decodeEdges codec data = .ok edges) :
    decodeOutEdges codec data = .ok ⟨edges.nxtsOut, ∅⟩ ∧
      decodeInEdges codec data = .ok ⟨∅, edges.nxtsIn⟩ := by
  by_cases hempty : data = []
  · subst hempty
    cases h
    exact ⟨rfl, rfl⟩
  · have hdecode := h
    unfold decodeEdges at hdecode
    rw [if_neg hempty] at hdecode
    unfold decodeOutEdges decodeInEdges
    rw [if_neg hempty, if_neg hempty]
    cases hdelta : decodeIfDelta codec data with
    | error e =>
      rw [hdelta] at hdecode
      exact nomatch hdecode
    | ok found =>
      cases found with
      | some delta =>
        show (decodeEdges codec data >>= _) = _ ∧ (decodeEdges codec data >>= _) = _
        rw [h]
        exact ⟨rfl, rfl⟩
      | none =>
        rw [hdelta] at hdecode
        cases hrun : (takeEdges codec data.length).run data with
        | error e =>
          have herror : ((takeEdges codec data.length).run data >>= fun result =>
            pure result.1) = .ok edges := hdecode
          rw [hrun] at herror
          exact nomatch herror
        | ok result =>
          have hok : ((takeEdges codec data.length).run data >>= fun result =>
            pure result.1) = .ok edges := hdecode
          rw [hrun] at hok
          cases hok
          obtain ⟨out, hdata, middle, hout, hin⟩ := takeEdges_run_ok hrun
          have hrunOut := takeOutEdges_run hout
          have hrunIn := takeInEdges_run hout hin
          rw [← hdata] at hrunOut hrunIn
          show ((takeOutEdges codec data.length).run data >>= _) = _ ∧
            ((takeInEdges codec data.length).run data >>= _) = _
          rw [hrunOut, hrunIn]
          exact ⟨rfl, rfl⟩

/-! ## §4. The laws of both deltas. -/

/-- **Membership deltas are lawful.**  For every delta that a sequence of calls
builds, in both layouts: its encoding, which exists exactly when the length prefixes
hold the lengths, decodes to it, and no ID is both added and removed.  Composing is
applying one after the other.  A frame with overlapping sets or with trailing bytes
is rejected.  A row that the full reader accepts reads alike one direction at a
time. -/
theorem membership_deltas_lawful (codec : RoaringCodec) (h : codec.Lossless) :
    (∀ changes : List BitmapMembershipDelta.Change,
      Disjoint (BitmapMembershipDelta.build changes).additions
        (BitmapMembershipDelta.build changes).removals ∧
      ((∃ bytes, (BitmapMembershipDelta.build changes).encode codec = .ok bytes) ↔
        codec.serializedSize (BitmapMembershipDelta.build changes).additions < 2 ^ 32 ∧
          codec.serializedSize (BitmapMembershipDelta.build changes).removals < 2 ^ 32) ∧
      ∀ bytes, (BitmapMembershipDelta.build changes).encode codec = .ok bytes →
        BitmapMembershipDelta.decodeIfDelta codec bytes =
          .ok (some (BitmapMembershipDelta.build changes))) ∧
    (∀ changes : List AdjacencyMembershipDelta.Change,
      Disjoint (AdjacencyMembershipDelta.build changes).outgoing.additions
        (AdjacencyMembershipDelta.build changes).outgoing.removals ∧
      Disjoint (AdjacencyMembershipDelta.build changes).incoming.additions
        (AdjacencyMembershipDelta.build changes).incoming.removals ∧
      ((∃ bytes, (AdjacencyMembershipDelta.build changes).encode codec = .ok bytes) ↔
        AdjacencyMembershipDelta.frameSize codec (AdjacencyMembershipDelta.build changes).outgoing
            < 2 ^ 32 ∧
          AdjacencyMembershipDelta.frameSize codec (AdjacencyMembershipDelta.build changes).incoming
            < 2 ^ 32) ∧
      ∀ bytes, (AdjacencyMembershipDelta.build changes).encode codec = .ok bytes →
        decodeIfDelta codec bytes =
          .ok (some (AdjacencyMembershipDelta.build changes))) ∧
    (∀ (a b : BitmapMembershipDelta) (ids : Finset UInt64),
      (a.compose b).applyTo ids = b.applyTo (a.applyTo ids)) ∧
    (∀ (a b : AdjacencyMembershipDelta) (edges : Edges),
      (a.compose b).applyTo edges = b.applyTo (a.applyTo edges)) ∧
    (∀ (x y rest t u : Bytes) (additions removals : Finset UInt64),
      x.length < 2 ^ 32 → y.length < 2 ^ 32 → codec.deserialize x = .ok (additions, t) →
      codec.deserialize y = .ok (removals, u) →
      (¬ Disjoint additions removals ∨ t ≠ [] ∨ u ≠ [] ∨ rest ≠ []) →
      ∃ e, BitmapMembershipDelta.decodeIfDelta codec
        (BitmapMembershipDelta.frame x y ++ rest) = .error e) ∧
    (∀ (reset : UInt8) (x y rest : Bytes), x.length < 2 ^ 32 → y.length < 2 ^ 32 →
      ((∀ delta, BitmapMembershipDelta.decodeIfDelta codec x ≠ .ok (some delta)) ∨
        (∀ delta, BitmapMembershipDelta.decodeIfDelta codec y ≠ .ok (some delta)) ∨ rest ≠ []) →
      ∃ e, decodeIfDelta codec
        (AdjacencyMembershipDelta.frame reset x y ++ rest) = .error e) ∧
    ∀ (data : Bytes) (edges : Edges), decodeEdges codec data = .ok edges →
      decodeOutEdges codec data = .ok ⟨edges.nxtsOut, ∅⟩ ∧
        decodeInEdges codec data = .ok ⟨∅, edges.nxtsIn⟩ := by
  refine ⟨?_, ?_, BitmapMembershipDelta.applyTo_compose, applyTo_compose,
    ?_, ?_, fun data edges hdata => decodeEdges_parts hdata⟩
  · intro changes
    exact ⟨(BitmapMembershipDelta.build changes).disjoint, BitmapMembershipDelta.encode_ok_iff,
      fun bytes hbytes => BitmapMembershipDelta.decodeIfDelta_encode h hbytes⟩
  · intro changes
    exact ⟨(AdjacencyMembershipDelta.build changes).outgoing.disjoint,
      (AdjacencyMembershipDelta.build changes).incoming.disjoint,
      AdjacencyMembershipDelta.encode_ok_iff,
      fun bytes hbytes => decodeIfDelta_encode h hbytes⟩
  · intro x y rest t u additions removals hxlen hylen hx hy hbad
    exact BitmapMembershipDelta.decodeIfDelta_rejects hxlen hylen hx hy hbad
  · intro reset x y rest hxlen hylen hbad
    exact AdjacencyMembershipDelta.decodeIfDelta_rejects hxlen hylen hbad

/-- The delta that adds 7 and then removes it, read back, and an empty row. -/
theorem membership_deltas_lawful_sample :
    BitmapMembershipDelta.decodeIfDelta portableCodec sampleRemove =
      .ok (some (BitmapMembershipDelta.build [.add 7, .remove 7])) ∧
    decodeOutEdges portableCodec [] = .ok ⟨∅, ∅⟩ := by
  have hlawful := membership_deltas_lawful portableCodec portableCodec_lossless
  have hencode : (BitmapMembershipDelta.build [.add 7, .remove 7]).encode portableCodec =
      .ok sampleRemove := by decide +kernel
  exact ⟨(hlawful.1 [.add 7, .remove 7]).2.2 _ hencode,
    (hlawful.2.2.2.2.2.2 [] Edges.new rfl).1⟩

end HelixDb.Membership
