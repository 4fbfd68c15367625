/-
  HelixDb.OperationQueue.Algebra

  **THE MERGE ALGEBRA OVER QUEUE VALUES**: `Composition` (an append-only list
  of slots, the index of the live ones, and the surviving removals),
  `Composition::follow`, and the two merges the store calls, `merge_partial`
  and `merge_with_base`.

  `Pending` is the abstract content of a composition: the removals and the
  live inserts in order.
    • `followRemove_abs`, `followInsert_abs` — one record acts on the content
      as the per-ID state machine says and keeps the slot index exact,
    • `compose_encode` — merging well-formed values folds their contents.
-/
import HelixDb.Lib.FinMap
import HelixDb.OperationQueue.Parse

namespace HelixDb.Queue

open HelixDb.Lib HelixDb.Encoding List

/-! ## §1. The composition. -/

/-- Per-ID composed insert, retained in first-effective-position order. -/
structure Slot where
  mode : InsertMode
  id : QueuedOperationId
  body : Bytes
  live : Bool
deriving DecidableEq

/-- Composition of an ordered sequence of values. -/
structure Composition where
  family : QueueFamily
  removes : Finset QueuedOperationId
  slots : List Slot
  live : FinMap QueuedOperationId Nat

namespace Composition

/-- No operand yet. -/
def new (family : QueueFamily) : Composition := ⟨family, ∅, [], ∅⟩

/-- An insert takes a new slot at the end. -/
def push (c : Composition) (mode : InsertMode) (insert : RawInsert) : Composition :=
  { c with
    live := c.live.insert insert.id c.slots.length
    slots := c.slots ++ [⟨mode, insert.id, insert.body, true⟩] }

/-- `self.slots[slot].live = false`. -/
def kill (c : Composition) (slot : Nat) : Composition :=
  { c with slots := c.slots.modify slot fun s => { s with live := false } }

/-- One removal record of a later value. -/
def followRemove (c : Composition) (id : QueuedOperationId) : Composition :=
  match c.live.lookup id with
  | none => { c with removes := insert id c.removes }
  | some slot =>
    let c := { c with live := c.live.erase id }.kill slot
    -- an insert-if-absent and its acknowledgement cancel; a set also removed
    -- whatever lay below it, so its removal is kept
    if (c.slots[slot]?.map Slot.mode) = some .set then
      { c with removes := insert id c.removes }
    else c

/-- One insert record of a later value. -/
def followInsert (c : Composition) (insert : RawInsert) : Composition :=
  if insert.id ∈ c.removes then
    { c with removes := c.removes.erase insert.id }.push .set insert
  else
    match c.live.lookup insert.id with
    | none => c.push insert.mode insert
    | some existing =>
      match insert.mode with
      | .ifAbsent => c
      | .set => (c.kill existing).push .set insert

/-- Applies one later value's records to the composed state. -/
def follow (c : Composition) (value : RawValue) : Except EncodingError Composition :=
  if value.family ≠ c.family then
    .error (.custom "operation queue merge mixes index families")
  else
    let c := value.removes.foldl followRemove c
    .ok (value.inserts.foldl followInsert c)

/-- The slots that were not superseded. -/
def liveSlots (c : Composition) : List Slot := c.slots.filter Slot.live

/-- Encodes the canonical unresolved composition. -/
def encodePartial (c : Composition) : Bytes :=
  putHeader c.family ++ (putVarint c.removes.card
    ++ (c.removes.sort (· ≤ ·)).flatMap QueuedOperationId.toBeBytes
    ++ (putVarint c.live.keys.length
      ++ c.liveSlots.flatMap fun slot => putRawInsert ⟨slot.mode, slot.id, slot.body⟩))

/-- Encodes the resolved value, or `none` when the queue is empty. -/
def encodeResolved (c : Composition) : Option Bytes :=
  if c.live.keys.isEmpty then none
  else
    some (putHeader c.family ++ (putVarint 0
      ++ (putVarint c.live.keys.length
        ++ c.liveSlots.flatMap fun slot => putRawInsert ⟨.ifAbsent, slot.id, slot.body⟩)))

end Composition

/-- The loop of `compose`: parse the next value, start a composition of its
family if there is none yet, and let it follow. -/
def composeStep (composition : Option Composition) (value : Bytes) :
    Except EncodingError (Option Composition) := do
  let raw ← RawValue.parse value
  let composition := composition.getD (Composition.new raw.family)
  let composition ← composition.follow raw
  return some composition

/-- A run of values, oldest first. -/
def compose (values : List Bytes) : Except EncodingError (Option Composition) :=
  values.foldlM composeStep none

/-- Resolved merge outcome: a retained queue or the empty queue. -/
inductive QueueMergeResult where
  | value (bytes : Bytes)
  | empty
deriving DecidableEq

/-- Composes values whose older base may still be unresolved. -/
def mergePartial (existing : Option Bytes) (operands : List Bytes) :
    Except EncodingError Bytes := do
  match ← compose (existing.toList ++ operands) with
  | some composition => return composition.encodePartial
  | none => throw (.custom "operation queue merge has no operands")

/-- Resolves operands against an authoritative base (absent means empty). -/
def mergeWithBase (base : Option Bytes) (operands : List Bytes) :
    Except EncodingError QueueMergeResult := do
  let composition ← compose (base.toList ++ operands)
  return match composition.bind Composition.encodeResolved with
    | some bytes => .value bytes
    | none => .empty

/-! ## §2. The content of a composition. -/

/-- The insert a slot holds. -/
def Slot.toInsert (s : Slot) : RawInsert := ⟨s.mode, s.id, s.body⟩

/-- What a composition stands for: the surviving removals and the live
inserts, in order. -/
structure Pending where
  removes : Finset QueuedOperationId
  live : List RawInsert
deriving DecidableEq

namespace Pending

/-- The IDs of the live inserts. -/
def ids (p : Pending) : List QueuedOperationId := p.live.map RawInsert.id

/-- Removing one ID: an unseen ID is remembered as removed, a live
insert-if-absent is cancelled, a live set leaves its removal behind. -/
def remove (p : Pending) (id : QueuedOperationId) : Pending :=
  if id ∈ p.ids then
    { removes := if ∃ i ∈ p.live, i.id = id ∧ i.mode = .set then insert id p.removes else p.removes
      live := p.live.filter fun i => i.id ≠ id }
  else { p with removes := insert id p.removes }

/-- Inserting one record: a removed ID becomes a set at the end, an unseen ID
is appended, a live one is kept or replaced by its mode. -/
def insert (p : Pending) (i : RawInsert) : Pending :=
  if i.id ∈ p.removes then
    { removes := p.removes.erase i.id, live := p.live ++ [{ i with mode := .set }] }
  else if i.id ∉ p.ids then { p with live := p.live ++ [i] }
  else
    match i.mode with
    | .ifAbsent => p
    | .set => { p with live := (p.live.filter fun j => j.id ≠ i.id) ++ [i] }

/-- One later value: its removals, then its inserts. -/
def follow (p : Pending) (value : RawValue) : Pending :=
  value.inserts.foldl insert (value.removes.foldl remove p)

/-- Nothing pending. -/
def empty : Pending := ⟨∅, []⟩

/-- The queue value with this content. -/
def toRaw (p : Pending) (family : QueueFamily) : RawValue :=
  ⟨family, p.removes.sort (· ≤ ·), p.live⟩

/-- The resolved queue value with these live inserts. -/
def toResolved (p : Pending) (family : QueueFamily) : RawValue :=
  ⟨family, [], p.live.map fun i => { i with mode := .ifAbsent }⟩

end Pending

variable {id : QueuedOperationId}

namespace Composition

variable {c : Composition}

/-- What a composition stands for. -/
def abs (c : Composition) : Pending := ⟨c.removes, c.liveSlots.map Slot.toInsert⟩

/-- The slot at position `k` is live and holds `id`. -/
def LiveAt (c : Composition) (id : QueuedOperationId) (k : Nat) : Prop :=
  ∃ s, c.slots[k]? = some s ∧ s.live = true ∧ s.id = id

/-- **The invariant**: the index names exactly the live slots, and a removed
ID has none. -/
structure Valid (c : Composition) : Prop where
  indexed : ∀ id k, c.live.lookup id = some k ↔ c.LiveAt id k
  disjoint : ∀ id ∈ c.removes, c.live.lookup id = none

theorem liveAt_push (mode : InsertMode) (i : RawInsert) (id : QueuedOperationId) (k : Nat) :
    (c.push mode i).LiveAt id k ↔ c.LiveAt id k ∨ (id = i.id ∧ k = c.slots.length) := by
  unfold LiveAt push
  rcases Nat.lt_trichotomy k c.slots.length with hk | hk | hk
  · rw [getElem?_append_left hk]
    constructor
    · exact Or.inl
    · intro h
      exact h.resolve_right fun h => absurd h.2 (by omega)
  · -- the pushed slot itself
    have hnone : c.slots[k]? = none := getElem?_eq_none (by omega)
    have hnew : (c.slots ++ [⟨mode, i.id, i.body, true⟩])[k]? = some ⟨mode, i.id, i.body, true⟩ := by
      rw [hk]
      exact getElem?_concat_length
    rw [hnew, hnone]
    constructor
    · intro ⟨s, hs, _, hid⟩
      cases hs
      exact Or.inr ⟨hid.symm, hk⟩
    · intro h
      rcases h with ⟨s, hs, -⟩ | ⟨hid, -⟩
      · cases hs
      · exact ⟨_, rfl, rfl, hid.symm⟩
  · have hnone : c.slots[k]? = none := getElem?_eq_none (by omega)
    have hnone' : (c.slots ++ [⟨mode, i.id, i.body, true⟩])[k]? = none :=
      getElem?_eq_none (by rw [length_append, length_singleton]; omega)
    rw [hnone, hnone']
    constructor
    · exact Or.inl
    · intro h
      exact h.resolve_right fun h => absurd h.2 (by omega)

theorem liveAt_kill (n : Nat) (id : QueuedOperationId) (k : Nat) :
    (c.kill n).LiveAt id k ↔ c.LiveAt id k ∧ k ≠ n := by
  unfold LiveAt kill
  simp only [getElem?_modify]
  by_cases hk : n = k
  · subst hk
    simp only [ne_eq, not_true_eq_false, and_false, iff_false]
    rintro ⟨s, hs, hlive, -⟩
    simp only [Option.map_eq_map, Option.map_eq_some_iff] at hs
    obtain ⟨t, -, rfl⟩ := hs
    cases hlive
  · simp [if_neg hk, Ne.symm hk]

theorem mem_ids_abs (id : QueuedOperationId) : id ∈ c.abs.ids ↔ ∃ k, c.LiveAt id k := by
  have hids : c.abs.ids = c.liveSlots.map Slot.id := map_map
  rw [hids, mem_map]
  constructor
  · intro ⟨s, hs, hid⟩
    obtain ⟨hmem, hlive⟩ := mem_filter.mp hs
    obtain ⟨k, hk⟩ := mem_iff_getElem?.mp hmem
    exact ⟨k, s, hk, hlive, hid⟩
  · intro ⟨k, s, hk, hlive, hid⟩
    exact ⟨s, mem_filter.mpr ⟨mem_iff_getElem?.mpr ⟨k, hk⟩, hlive⟩, hid⟩

/-- A live ID is at one position only. -/
theorem Valid.liveAt_unique (h : c.Valid) {j k : Nat}
    (hj : c.LiveAt id j) (hk : c.LiveAt id k) : j = k := by
  have hj' := (h.indexed id j).mpr hj
  rw [(h.indexed id k).mpr hk] at hj'
  exact (Option.some.inj hj').symm

theorem Valid.lookup_eq_none (h : c.Valid) (id : QueuedOperationId) :
    c.live.lookup id = none ↔ id ∉ c.abs.ids := by
  rw [mem_ids_abs, ← not_iff_not, not_not, ← ne_eq, Option.ne_none_iff_exists']
  exact exists_congr fun k => h.indexed id k

/-! ## §3. One record. -/

theorem abs_push (mode : InsertMode) (i : RawInsert) :
    (c.push mode i).abs = { c.abs with live := c.abs.live ++ [{ i with mode := mode }] } := by
  unfold abs liveSlots push
  rw [filter_append, map_append]
  rfl

/-- Pushing keeps the index exact when it was exact for every other ID and no
live slot holds the pushed one. -/
theorem push_valid {mode : InsertMode} {i : RawInsert}
    (hindexed : ∀ id k, id ≠ i.id → (c.live.lookup id = some k ↔ c.LiveAt id k))
    (hdead : ∀ k, ¬ c.LiveAt i.id k) (hremoves : i.id ∉ c.removes)
    (hdisjoint : ∀ id ∈ c.removes, c.live.lookup id = none) : (c.push mode i).Valid := by
  have hlookup : ∀ id, (c.push mode i).live.lookup id
      = if id = i.id then some c.slots.length else c.live.lookup id :=
    fun id => FinMap.lookup_insert_eq c.live i.id id _
  constructor
  · intro id k
    rw [hlookup, liveAt_push]
    split_ifs with hid
    · rw [hid]
      have hno := hdead k
      constructor
      · intro h
        exact Or.inr ⟨rfl, (Option.some.inj h).symm⟩
      · intro h
        rw [(h.resolve_left hno).2]
    · rw [hindexed id k hid]
      exact ⟨Or.inl, fun h => h.resolve_right fun h => hid h.1⟩
  · intro id hid
    have hne : id ≠ i.id := fun h => hremoves (h ▸ hid)
    rw [hlookup, if_neg hne]
    exact hdisjoint id hid

/-- Clearing the one live slot of an ID filters it out of the content. -/
theorem filter_live_kill (slots : List Slot) :
    ∀ (k : Nat) (s : Slot), slots[k]? = some s →
      (∀ j t, slots[j]? = some t → t.live = true → t.id = s.id → j = k) →
      (slots.modify k fun s => { s with live := false }).filter Slot.live
        = (slots.filter Slot.live).filter fun t => t.id ≠ s.id := by
  induction slots with
  | nil => intro k s hs; cases hs
  | cons t ts ih =>
    intro k s hs huniq
    cases k with
    | zero =>
      -- the head is the slot that dies; no later live slot holds its ID
      cases hs
      have htail : (ts.filter Slot.live).filter (fun u => u.id ≠ t.id) = ts.filter Slot.live := by
        rw [filter_eq_self]
        intro u hu
        obtain ⟨hmem, hlive⟩ := mem_filter.mp hu
        obtain ⟨j, hj⟩ := mem_iff_getElem?.mp hmem
        have hne : u.id ≠ t.id := fun h => absurd (huniq (j + 1) u hj hlive h) (by omega)
        simpa using hne
      have hhead : (List.filter Slot.live (t :: ts)).filter (fun u => u.id ≠ t.id)
          = (ts.filter Slot.live).filter (fun u => u.id ≠ t.id) := by
        by_cases hlive : t.live = true
        · rw [filter_cons_of_pos hlive, filter_cons_of_neg (by simp)]
        · rw [filter_cons_of_neg hlive]
      rw [hhead, htail, modify_zero_cons, filter_cons_of_neg (by simp)]
    | succ k =>
      have hrec := ih k s hs fun j u hu hlive hid =>
        Nat.succ.inj (huniq (j + 1) u hu hlive hid)
      rw [modify_succ_cons]
      by_cases hlive : t.live = true
      · have hne : t.id ≠ s.id := fun h => absurd (huniq 0 t rfl hlive h) (by omega)
        rw [filter_cons_of_pos hlive, filter_cons_of_pos hlive,
          filter_cons_of_pos (by simpa using hne), hrec]
      · rw [filter_cons_of_neg hlive, filter_cons_of_neg hlive, hrec]

/-- Clearing the live slot of `id` drops `id` from the content. -/
theorem abs_kill (h : c.Valid) {k : Nat} (hk : c.LiveAt id k) :
    (c.kill k).abs.live = c.abs.live.filter fun i => i.id ≠ id := by
  have hat := hk
  obtain ⟨s, hs, -, hid⟩ := hat
  have hfilter := filter_live_kill c.slots k s hs fun j t ht hlive htid =>
    h.liveAt_unique ⟨t, ht, hlive, htid.trans hid⟩ hk
  unfold abs liveSlots kill
  rw [hfilter, filter_map, hid]
  rfl

/-- The live slot of `id` is a set exactly when the content holds a set of it. -/
theorem mode_set_iff (h : c.Valid) {k : Nat} {s : Slot}
    (hs : c.slots[k]? = some s) (hlive : s.live = true) (hid : s.id = id) :
    s.mode = .set ↔ ∃ i ∈ c.abs.live, i.id = id ∧ i.mode = .set := by
  constructor
  · intro hmode
    refine ⟨s.toInsert, mem_map_of_mem (mem_filter.mpr ⟨?_, hlive⟩), hid, hmode⟩
    exact mem_iff_getElem?.mpr ⟨k, hs⟩
  · intro ⟨i, hi, hiid, himode⟩
    obtain ⟨t, ht, rfl⟩ := mem_map.mp hi
    obtain ⟨hmem, htlive⟩ := mem_filter.mp ht
    obtain ⟨j, hj⟩ := mem_iff_getElem?.mp hmem
    have hjk : j = k := h.liveAt_unique ⟨t, hj, htlive, hiid⟩ ⟨s, hs, hlive, hid⟩
    rw [hjk, hs] at hj
    cases hj
    exact himode

/-- **One removal record** acts on the content as `Pending.remove`. -/
theorem followRemove_abs (h : c.Valid) (id : QueuedOperationId) :
    (c.followRemove id).Valid ∧ (c.followRemove id).abs = c.abs.remove id ∧
      (c.followRemove id).family = c.family := by
  unfold followRemove
  cases hlookup : c.live.lookup id with
  | none =>
    have hnew : id ∉ c.abs.ids := (h.lookup_eq_none id).mp hlookup
    refine ⟨⟨h.indexed, ?_⟩, ?_, rfl⟩
    · intro id' hid'
      rcases Finset.mem_insert.mp hid' with rfl | hid'
      · exact hlookup
      · exact h.disjoint id' hid'
    · unfold Pending.remove
      rw [if_neg hnew]
      rfl
  | some k =>
    have hat : c.LiveAt id k := (h.indexed id k).mp hlookup
    have hat' := hat
    obtain ⟨s, hs, hlive, hid⟩ := hat'
    have hmem : id ∈ c.abs.ids := mem_ids_abs id |>.mpr ⟨k, hat⟩
    -- the mode is read from the slot after it has been cleared
    have hmode : ((({ c with live := c.live.erase id } : Composition).kill k).slots[k]?.map
        Slot.mode) = some s.mode := by
      unfold kill
      simp only [getElem?_modify, hs]
      rfl
    have hlookup' : ∀ id', (c.live.erase id).lookup id'
        = if id' = id then none else c.live.lookup id' :=
      fun id' => FinMap.lookup_erase_eq c.live id id'
    have hindexed : ∀ id' k', (c.live.erase id).lookup id' = some k' ↔ (c.kill k).LiveAt id' k' := by
      intro id' k'
      rw [hlookup', liveAt_kill, ← h.indexed id' k']
      by_cases hid' : id' = id
      · rw [if_pos hid', hid', hlookup]
        constructor
        · intro hcontra; cases hcontra
        · intro ⟨hk', hne⟩; exact absurd (Option.some.inj hk').symm hne
      · rw [if_neg hid']
        refine ⟨fun hk' => ⟨hk', ?_⟩, fun hk' => hk'.1⟩
        intro hkk
        obtain ⟨t, ht, -, htid⟩ := (h.indexed id' k').mp hk'
        rw [hkk, hs] at ht
        cases ht
        exact hid' (htid.symm.trans hid)
    have hgone : (c.live.erase id).lookup id = none := AList.lookup_erase id c.live
    have hdisjoint : ∀ id' ∈ c.removes, (c.live.erase id).lookup id' = none := by
      intro id' hid'
      rw [hlookup']
      split_ifs
      · rfl
      · exact h.disjoint id' hid'
    have habs : (c.kill k).abs.live = c.abs.live.filter fun i => i.id ≠ id := abs_kill h hat
    simp only [hmode]
    unfold Pending.remove
    rw [if_pos hmem]
    by_cases hset : s.mode = .set
    · rw [if_pos (congrArg some hset), if_pos ((mode_set_iff h hs hlive hid).mp hset)]
      refine ⟨⟨hindexed, ?_⟩, ?_, rfl⟩
      · intro id' hid'
        rcases Finset.mem_insert.mp hid' with rfl | hid'
        · exact hgone
        · exact hdisjoint id' hid'
      · rw [← habs]
        rfl
    · have hnot : ¬ some s.mode = some InsertMode.set := fun h => hset (Option.some.inj h)
      rw [if_neg hnot, if_neg fun hex => hset ((mode_set_iff h hs hlive hid).mpr hex)]
      refine ⟨⟨hindexed, hdisjoint⟩, ?_, rfl⟩
      rw [← habs]
      rfl

/-- **One insert record** acts on the content as `Pending.insert`. -/
theorem followInsert_abs (h : c.Valid) (i : RawInsert) :
    (c.followInsert i).Valid ∧ (c.followInsert i).abs = c.abs.insert i ∧
      (c.followInsert i).family = c.family := by
  have hdead_of : c.live.lookup i.id = none → ∀ k, ¬ c.LiveAt i.id k := by
    intro hnone k hk
    simp [(h.indexed i.id k).mpr hk] at hnone
  unfold followInsert Pending.insert
  by_cases hremoved : i.id ∈ c.removes
  · rw [if_pos hremoved, if_pos (show i.id ∈ c.abs.removes from hremoved)]
    refine ⟨push_valid (fun id k _ => h.indexed id k) (hdead_of (h.disjoint _ hremoved))
      (Finset.notMem_erase _ _) ?_, abs_push _ _, rfl⟩
    intro id hid
    exact h.disjoint id (Finset.mem_of_mem_erase hid)
  · rw [if_neg hremoved, if_neg (show i.id ∉ c.abs.removes from hremoved)]
    cases hlookup : c.live.lookup i.id with
    | none =>
      rw [if_pos ((h.lookup_eq_none i.id).mp hlookup)]
      exact ⟨push_valid (fun id k _ => h.indexed id k) (hdead_of hlookup) hremoved h.disjoint,
        abs_push _ _, rfl⟩
    | some k =>
      have hat : c.LiveAt i.id k := (h.indexed i.id k).mp hlookup
      rw [if_neg (not_not_intro ((mem_ids_abs i.id).mpr ⟨k, hat⟩))]
      cases hmode : i.mode with
      | ifAbsent => exact ⟨h, rfl, rfl⟩
      | set =>
        -- the old slot dies, so no live slot holds the ID when it is pushed again
        have hindexed : ∀ id k', id ≠ i.id →
            ((c.kill k).live.lookup id = some k' ↔ (c.kill k).LiveAt id k') := by
          intro id k' hne
          rw [liveAt_kill, ← h.indexed id k']
          refine ⟨fun hk' => ⟨hk', ?_⟩, fun hk' => hk'.1⟩
          intro hkk
          obtain ⟨t, ht, -, htid⟩ := (h.indexed id k').mp hk'
          obtain ⟨s, hs, -, hsid⟩ := hat
          rw [hkk, hs] at ht
          cases ht
          exact hne (htid.symm.trans hsid)
        have hdead : ∀ k', ¬ (c.kill k).LiveAt i.id k' := by
          intro k' hk'
          obtain ⟨hk', hne⟩ := (liveAt_kill k i.id k').mp hk'
          exact hne (h.liveAt_unique hk' hat)
        refine ⟨push_valid hindexed hdead hremoved h.disjoint, ?_, rfl⟩
        have hi : ({ i with mode := .set } : RawInsert) = i := by rw [← hmode]
        rw [abs_push, abs_kill h hat, hi]
        rfl

/-! ## §4. Whole values. -/

theorem foldl_abs {α : Type} {f : Composition → α → Composition} {g : Pending → α → Pending}
    (hstep : ∀ (c : Composition) (a : α), c.Valid →
      (f c a).Valid ∧ (f c a).abs = g c.abs a ∧ (f c a).family = c.family) (as : List α) :
    ∀ c : Composition, c.Valid →
      (as.foldl f c).Valid ∧ (as.foldl f c).abs = as.foldl g c.abs ∧
        (as.foldl f c).family = c.family := by
  induction as with
  | nil => intro c h; exact ⟨h, rfl, rfl⟩
  | cons a as ih =>
    intro c h
    obtain ⟨hvalid, habs, hfamily⟩ := hstep c a h
    obtain ⟨hvalid', habs', hfamily'⟩ := ih (f c a) hvalid
    rw [foldl_cons, foldl_cons, ← habs]
    exact ⟨hvalid', habs', hfamily'.trans hfamily⟩

/-- **One later value of the family** acts on the content as
`Pending.follow`. -/
theorem follow_abs (h : c.Valid) {value : RawValue} (hfamily : value.family = c.family) :
    ∃ c', c.follow value = .ok c' ∧ c'.Valid ∧ c'.abs = c.abs.follow value ∧
      c'.family = c.family := by
  obtain ⟨hv, ha, hf⟩ := foldl_abs (fun c id h => followRemove_abs (c := c) h id) value.removes c h
  obtain ⟨hv', ha', hf'⟩ := foldl_abs (fun c i h => followInsert_abs (c := c) h i) value.inserts _ hv
  refine ⟨_, ?_, hv', ?_, hf'.trans hf⟩
  · unfold follow
    rw [if_neg (not_not_intro hfamily)]
  · rw [ha', ha]
    rfl

theorem new_valid (family : QueueFamily) : (new family).Valid := by
  constructor
  · intro id k
    constructor
    · intro h; cases h
    · intro ⟨s, hs, _⟩; cases hs
  · intro id _
    rfl

/-- No ID is live twice. -/
theorem Valid.ids_nodup (h : c.Valid) : c.abs.ids.Nodup := by
  have hpair : c.slots.Pairwise fun s t => s.live = true → t.live = true → s.id ≠ t.id := by
    rw [pairwise_iff_getElem]
    intro i j hi hj hij hs ht hid
    have hsame := h.liveAt_unique ⟨_, getElem?_eq_getElem hi, hs, hid⟩
      ⟨_, getElem?_eq_getElem hj, ht, rfl⟩
    omega
  have hids : c.abs.ids = c.liveSlots.map Slot.id := map_map
  rw [hids]
  unfold List.Nodup
  rw [pairwise_map]
  refine (hpair.filter _).imp_of_mem ?_
  intro s t hs ht hne
  exact hne (mem_filter.mp hs).2 (mem_filter.mp ht).2

/-- The index counts the live slots. -/
theorem Valid.keys_length (h : c.Valid) : c.live.keys.length = c.abs.live.length := by
  have hperm : c.live.keys.Perm c.abs.ids := by
    rw [perm_ext_iff_of_nodup c.live.keys_nodup h.ids_nodup]
    intro id
    rw [FinMap.mem_keys_iff, mem_ids_abs]
    exact exists_congr fun k => h.indexed id k
  have hlen := hperm.length_eq
  unfold Pending.ids at hlen
  rwa [length_map] at hlen

/-- The unresolved encoding is the layout of the content. -/
theorem encodePartial_eq (h : c.Valid) : c.encodePartial = (c.abs.toRaw c.family).encode := by
  unfold encodePartial RawValue.encode RawValue.encodeRecords Pending.toRaw
  rw [h.keys_length, Finset.length_sort]
  unfold abs
  rw [flatMap_map]
  rfl

/-- The resolved encoding is the layout of the live inserts; an empty content
has none. -/
theorem encodeResolved_eq (h : c.Valid) :
    c.encodeResolved = if c.abs.live = [] then none
      else some (c.abs.toResolved c.family).encode := by
  have hkeys : c.live.keys.isEmpty = true ↔ c.abs.live = [] := by
    rw [List.isEmpty_iff, ← List.length_eq_zero_iff, h.keys_length, List.length_eq_zero_iff]
  unfold encodeResolved
  by_cases hempty : c.abs.live = []
  · rw [if_pos (hkeys.mpr hempty), if_pos hempty]
  · rw [if_neg fun hk => hempty (hkeys.mp hk), if_neg hempty, h.keys_length]
    unfold RawValue.encode RawValue.encodeRecords Pending.toResolved abs
    simp only [List.length_map, List.flatMap_map]
    rfl

end Composition

/-- **Merging well-formed values of one family folds their contents.** -/
theorem compose_encode {family : QueueFamily} (values : List RawValue)
    (hwf : ∀ v ∈ values, v.WellFormed) (hfamily : ∀ v ∈ values, v.family = family)
    (hne : values ≠ []) :
    ∃ c, compose (values.map RawValue.encode) = .ok (some c) ∧ c.Valid ∧
      c.abs = values.foldl Pending.follow Pending.empty ∧ c.family = family := by
  -- the loop from any composition of the family
  have hloop : ∀ (vs : List RawValue), (∀ v ∈ vs, v.WellFormed) → (∀ v ∈ vs, v.family = family) →
      ∀ c : Composition, c.Valid → c.family = family →
      ∃ c', (vs.map RawValue.encode).foldlM composeStep (some c) = .ok (some c') ∧ c'.Valid ∧
        c'.abs = vs.foldl Pending.follow c.abs ∧ c'.family = family := by
    intro vs
    induction vs with
    | nil => intro _ _ c h hf; exact ⟨c, rfl, h, rfl, hf⟩
    | cons v vs ih =>
      intro hwf hfam c h hf
      have hv := hfam v mem_cons_self
      obtain ⟨c', hfollow, hvalid, habs, hcf⟩ := Composition.follow_abs h (hv.trans hf.symm)
      obtain ⟨c'', hrun, hvalid', habs', hf'⟩ := ih
        (fun w hw => hwf w (mem_cons_of_mem _ hw))
        (fun w hw => hfam w (mem_cons_of_mem _ hw)) c' hvalid (hcf.trans hf)
      refine ⟨c'', ?_, hvalid', ?_, hf'⟩
      · have hstep : composeStep (some c) v.encode = .ok (some c') := by
          unfold composeStep
          rw [parse_encode (hwf v mem_cons_self)]
          show (do let c ← c.follow v; pure (some c)) = _
          rw [hfollow]
          rfl
        rwa [map_cons, foldlM_cons, hstep]
      · rw [habs', habs, foldl_cons]
  cases values with
  | nil => exact absurd rfl hne
  | cons v vs =>
    -- the first value starts a composition of its own family
    have hv := hfamily v mem_cons_self
    have hfirst : compose ((v :: vs).map RawValue.encode)
        = ((v :: vs).map RawValue.encode).foldlM composeStep (some (Composition.new family)) := by
      unfold compose
      rw [map_cons, foldlM_cons, foldlM_cons]
      unfold composeStep
      rw [parse_encode (hwf v mem_cons_self), ← hv]
      rfl
    rw [hfirst]
    exact hloop (v :: vs) hwf hfamily _ (Composition.new_valid family) rfl

/-- **`merge_partial`** returns the value of the folded content. -/
theorem mergePartial_encode (family : QueueFamily) (existing : Option Bytes)
    (operands : List Bytes) (values : List RawValue)
    (hbytes : existing.toList ++ operands = values.map RawValue.encode)
    (hwf : ∀ v ∈ values, v.WellFormed) (hfamily : ∀ v ∈ values, v.family = family)
    (hne : values ≠ []) :
    mergePartial existing operands
      = .ok ((values.foldl Pending.follow Pending.empty).toRaw family).encode := by
  obtain ⟨c, hc, hvalid, habs, hcf⟩ := compose_encode values hwf hfamily hne
  unfold mergePartial
  rw [hbytes, hc, ← habs, ← hcf, ← Composition.encodePartial_eq hvalid]
  rfl

/-- **`merge_with_base`** returns the live inserts of the folded content. -/
theorem mergeWithBase_encode (family : QueueFamily) (base : Option Bytes)
    (operands : List Bytes) (values : List RawValue)
    (hbytes : base.toList ++ operands = values.map RawValue.encode)
    (hwf : ∀ v ∈ values, v.WellFormed) (hfamily : ∀ v ∈ values, v.family = family) :
    mergeWithBase base operands
      = .ok (if (values.foldl Pending.follow Pending.empty).live = [] then .empty
          else .value ((values.foldl Pending.follow Pending.empty).toResolved family).encode) := by
  unfold mergeWithBase
  rw [hbytes]
  by_cases hne : values = []
  · subst hne
    rfl
  · obtain ⟨c, hc, hvalid, habs, hcf⟩ := compose_encode values hwf hfamily hne
    rw [hc, ← habs, ← hcf]
    show Except.ok (match c.encodeResolved with | some bytes => _ | none => _) = _
    rw [Composition.encodeResolved_eq hvalid]
    split_ifs <;> rfl

end HelixDb.Queue
