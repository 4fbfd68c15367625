/-
  HelixDb.OperationQueue.Latest

  **EACH ENTITY'S LATEST OPERATION WITHIN A BUDGET**: `LatestOperations::decode`,
  which searches run on a resolved queue value, against the full decoding.

  The walk groups records by the raw bytes naming their entity, keeps state for
  at most `budget / MIN_RETAINED_RECORD_LEN` entities and decodes only what it
  selects.  On a value that decodes the raw bytes name entities faithfully
  (`entityOf_putBody`, `entityBytes_injective`), and an entity past the cap can
  never be selected, because every operation retains at least
  `MIN_RETAINED_RECORD_LEN` bytes.

    • `Walk.Tracks` — the walk's state after some operations,
    • `walk_tracks` — **every walk keeps it**,
    • `latest_decode_selects` — **the selection is the longest that fits**.
-/
import HelixDb.Lib.FinMap
import HelixDb.Lib.Saturating
import HelixDb.Lib.Selection
import HelixDb.OperationQueue.Frame

namespace HelixDb.Queue

open HelixDb.Lib HelixDb.Encoding QueuedOperation List

/-! ## §1. `select_latest`. -/

/-- The longest entity of a body. -/
def MAX_ENTITY_LEN : Nat := KIND_LEN + MAX_VARINT_LEN

/-- The length of the bytes naming a body's entity: the kind byte and the ID
varint, up to its first terminating byte (or whatever a malformed body has). -/
def entityLen (body : Bytes) : Nat :=
  min (match ((body.drop KIND_LEN).take MAX_VARINT_LEN).findIdx? fun byte => byte &&& 0x80 == 0 with
    | some last => KIND_LEN + last + 1
    | none => body.length) MAX_ENTITY_LEN

/-- The bytes of a body's entity. -/
def entityOf (body : Bytes) : Bytes := body.take (entityLen body)

/-- What the walk keeps: the tracked entities in the order of their first
records, the retained bytes and record of each one's latest operation, and
whether an entity was left untracked. -/
structure Walk where
  order : List Bytes
  latest : FinMap Bytes (Nat × (QueuedOperationId × Bytes))
  untracked : Bool

/-- The three arms of the walk at one entity. -/
def Walk.track (trackable : Nat) (walk : Walk) (entity : Bytes)
    (state : Nat × (QueuedOperationId × Bytes)) : Walk :=
  match walk.latest.lookup entity with
  | some _ => { walk with latest := walk.latest.insert entity state }
  | none =>
    if walk.order.length < trackable then
      { walk with
        order := walk.order ++ [entity]
        latest := walk.latest.insert entity state }
    else { walk with untracked := true }

/-- One record of the walk. -/
def Walk.visit (trackable : Nat) (walk : Walk) (record : QueuedOperationId × Bytes) : Walk :=
  walk.track trackable (entityOf record.2) (retainedLen record.2.length, record)

/-- The records still to come. -/
def takeWalk (trackable : Nat) : Nat → Walk → Read Walk
  | 0, walk => return walk
  | remaining + 1, walk => do
    let record ← takeRecord
    takeWalk trackable remaining (walk.visit trackable record)

/-- The selection over the tracked entities: the first record past the budget
both ends it and is charged in the reach it reports.  The `expect` on a tracked
entity's record is a failure with its text. -/
def selectLoop (budget : Nat) (untracked : Bool) :
    List Bytes → FinMap Bytes (Nat × (QueuedOperationId × Bytes)) → Nat →
      List (QueuedOperationId × Bytes) →
      Except EncodingError (List (QueuedOperationId × Bytes) × Option Nat)
  | [], _, charged, selected =>
    .ok (selected, if untracked then
      some (max (saturatingAdd charged MIN_RETAINED_RECORD_LEN) (saturatingAdd budget 1))
      else none)
  | entity :: order, latest, charged, selected =>
    match latest.lookup entity with
    | none => .error (.custom "every tracked entity has a latest record")
    | some (retained, record) =>
      let reached := saturatingAdd charged retained
      if reached > budget then .ok (selected, some reached)
      else selectLoop budget untracked order (latest.erase entity) reached (selected ++ [record])

/-- Each pending entity's latest outstanding operation, as a search reads it. -/
structure LatestOperations where
  family : QueueFamily
  operations : List QueuedOperation
  refused : Option Nat
deriving DecidableEq

/-- `resolved_records`, with the walk of `select_latest` over its records. -/
def takeLatest (trackable : Nat) : Read Walk := do
  let removals ← takeVarint
  Reader.rejectIf (removals ≠ 0) (.custom "resolved operation queue retains acknowledgements")
  let remaining ← boundedCount (MODE_LEN + OPERATION_ID_LEN + 1)
  Reader.rejectIf (remaining = 0) (.custom "resolved operation queue is empty instead of absent")
  takeWalk trackable remaining ⟨[], ∅, false⟩

/-- Selects from one resolved queue value within `budget`. -/
def LatestOperations.decode (value : Bytes) (budget : UInt64) :
    Except EncodingError LatestOperations := do
  let (family, cursor) ← parseHeader value
  let walk ← Reader.finish (trailingBytes "operation queue value")
    (takeLatest (budget.toNat / MIN_RETAINED_RECORD_LEN)) cursor
  let (selected, refused) ← selectLoop budget.toNat walk.untracked walk.order walk.latest 0 []
  let operations ← selected.mapM fun record => decodeBody family record.1 record.2
  return ⟨family, operations, refused⟩

/-! ## §2. The raw bytes name the entity. -/

/-- The bytes an entity is written as. -/
def entityBytes (entity : IndexEntity) : Bytes :=
  entity.kind.toU8 :: putVarint entity.id.toNat

theorem entityBytes_injective : Function.Injective entityBytes := by
  intro a b h
  have ha := (takeEntity_reads a).run_eq
  have hb := (takeEntity_reads b).run_eq
  rw [show a.kind.toU8 :: putVarint a.id.toNat = _ from h] at ha
  exact congrArg Prod.fst (Except.ok.inj (ha.symm.trans hb))

theorem entityOf_putBody (operation : QueuedOperation) :
    entityOf (putBody operation) = entityBytes operation.entity := by
  have hid : operation.entity.id.toNat < 128 ^ (MAX_VARINT_LEN - 1 + 1) :=
    operation.entity.id.toNat_lt.trans (by decide)
  have hfind : (((putBody operation).drop KIND_LEN).take MAX_VARINT_LEN).findIdx?
      (fun byte => byte &&& 0x80 == 0) = some (varintLen operation.entity.id.toNat - 1) :=
    Leb128.findIdx?_put _ _ hid
  have hpos := varintLen_pos operation.entity.id.toNat
  have hle := varintLen_le operation.entity.id.toNat
  have hlen : entityLen (putBody operation) = (entityBytes operation.entity).length := by
    unfold entityLen entityBytes MAX_ENTITY_LEN
    rw [hfind, length_cons, putVarint_length]
    show min (KIND_LEN + _ + 1) _ = _
    simp only [KIND_LEN] at hle ⊢
    omega
  unfold entityOf
  rw [hlen]
  exact take_left

/-! ## §3. What the walk has tracked. -/

/-- The record an operation is stored as. -/
def QueuedOperation.record (operation : QueuedOperation) : QueuedOperationId × Bytes :=
  (operation.id, putBody operation)

/-- The state of the walk after `operations`. -/
structure Walk.Tracks (trackable : Nat) (operations : List QueuedOperation) (walk : Walk) :
    Prop where
  order_eq : walk.order =
    ((firstKeys entity operations).take trackable).map entityBytes
  latest_eq : ∀ key, walk.latest.lookup (entityBytes key) =
    if key ∈ (firstKeys entity operations).take trackable then
      (lastOf entity operations key).map fun operation =>
        (operation.retainedBytes, operation.record)
    else none
  untracked_iff : walk.untracked = true ↔
    trackable < (firstKeys entity operations).length

theorem Walk.Tracks.nil (trackable : Nat) : Walk.Tracks trackable [] ⟨[], ∅, false⟩ where
  order_eq := by
    show [] = (take trackable []).map entityBytes
    rw [take_nil, map_nil]
  latest_eq := by
    intro key
    show none = if key ∈ take trackable [] then _ else none
    rw [take_nil, if_neg not_mem_nil]
  untracked_iff := ⟨(fun h => nomatch h), (fun h => absurd h (Nat.not_lt_zero _))⟩

theorem lookup_insert_entityBytes (latest : FinMap Bytes (Nat × (QueuedOperationId × Bytes)))
    (key other : IndexEntity) (state : Nat × (QueuedOperationId × Bytes)) :
    (latest.insert (entityBytes key) state).lookup (entityBytes other) =
      if key = other then some state else latest.lookup (entityBytes other) := by
  rw [FinMap.lookup_insert_eq]
  refine if_congr ?_ rfl rfl
  rw [entityBytes_injective.eq_iff, eq_comm]

variable {operations : List QueuedOperation} {trackable budget : Nat}

/-- **One record keeps the state**: a tracked entity's latest operation is
replaced, a new one is tracked while there is room. -/
theorem Walk.Tracks.visit {walk : Walk}
    (h : walk.Tracks trackable operations) (operation : QueuedOperation) :
    (walk.visit trackable operation.record).Tracks trackable (operations ++ [operation]) := by
  have hvisit : walk.visit trackable operation.record = walk.track trackable
      (entityBytes operation.entity) (operation.retainedBytes, operation.record) := by
    show walk.track _ (entityOf (putBody operation)) (retainedLen (putBody operation).length, _) = _
    rw [entityOf_putBody, putBody_length]
    rfl
  have hkeys : firstKeys entity (operations ++ [operation]) = _ :=
    firstKeys_concat operations operation
  have hlatest := h.latest_eq operation.entity
  have hlength : walk.order.length =
      min trackable (firstKeys entity operations).length := by
    rw [h.order_eq, length_map, length_take]
  rw [hvisit]
  unfold Walk.track
  by_cases hmem : operation.entity ∈ (firstKeys entity operations).take trackable
  · -- tracked: the order stays, the entity's latest record is this one
    have hseen := mem_of_mem_take hmem
    obtain ⟨last, hlast⟩ := exists_lastOf hseen
    rw [if_pos hmem, hlast] at hlatest
    rw [if_pos hseen] at hkeys
    rw [hlatest]
    refine ⟨by rw [hkeys]; exact h.order_eq, fun key => ?_, by rw [hkeys]; exact h.untracked_iff⟩
    show (walk.latest.insert _ _).lookup _ = _
    rw [lookup_insert_entityBytes, hkeys, lastOf_concat]
    by_cases hkey : operation.entity = key
    · rw [if_pos hkey, if_pos hkey, ← hkey, if_pos hmem]
      rfl
    · rw [if_neg hkey, if_neg hkey, h.latest_eq]
  · rw [if_neg hmem] at hlatest
    rw [hlatest]
    by_cases hroom : walk.order.length < trackable
    · -- room: every entity so far is tracked, and this one is new
      have hshort : (firstKeys entity operations).length < trackable := by omega
      rw [take_of_length_le hshort.le] at hmem
      rw [if_neg hmem] at hkeys
      have htake : (firstKeys entity (operations ++ [operation])).take trackable =
          firstKeys entity operations ++ [operation.entity] := by
        rw [hkeys]
        exact take_of_length_le (by rw [length_append, length_singleton]; omega)
      show Walk.Tracks _ _ (if walk.order.length < trackable then _ else _)
      rw [if_pos hroom]
      refine ⟨?_, fun key => ?_, ?_⟩
      · show walk.order ++ _ = _
        rw [h.order_eq, htake, take_of_length_le hshort.le, map_append, map_singleton]
      · show (walk.latest.insert _ _).lookup _ = _
        rw [lookup_insert_entityBytes, htake, lastOf_concat]
        by_cases hkey : operation.entity = key
        · rw [if_pos hkey, if_pos hkey, if_pos (by rw [hkey]; simp)]
          rfl
        · have hiff : key ∈ firstKeys entity operations ++ [operation.entity] ↔
              key ∈ (firstKeys entity operations).take trackable := by
            rw [take_of_length_le hshort.le, mem_append, mem_singleton]
            exact or_iff_left (Ne.symm hkey)
          rw [if_neg hkey, if_neg hkey, h.latest_eq]
          exact if_congr hiff.symm rfl rfl
      · have huntracked := h.untracked_iff
        rw [hkeys, length_append, length_singleton]
        show walk.untracked = true ↔ _
        rw [huntracked]
        omega
    · -- no room: the entity is left untracked, now or from before
      have hfull : trackable ≤ (firstKeys entity operations).length := by omega
      have htake : (firstKeys entity (operations ++ [operation])).take trackable =
          (firstKeys entity operations).take trackable := by
        rw [hkeys]
        split_ifs
        · rfl
        · exact take_append_of_le_length hfull
      have hmore : trackable <
          (firstKeys entity (operations ++ [operation])).length := by
        rw [hkeys]
        split_ifs with hseen
        · rcases Nat.lt_or_ge trackable (firstKeys entity operations).length with h | h
          · exact h
          · rw [take_of_length_le h] at hmem
            exact absurd hseen hmem
        · rw [length_append, length_singleton]
          omega
      show Walk.Tracks _ _ (if walk.order.length < trackable then _ else _)
      rw [if_neg hroom]
      refine ⟨by rw [htake]; exact h.order_eq, fun key => ?_, ⟨fun _ => hmore, fun _ => rfl⟩⟩
      show walk.latest.lookup _ = _
      rw [h.latest_eq, htake, lastOf_concat]
      by_cases hkey : operation.entity = key
      · rw [← hkey, if_neg hmem, if_neg hmem]
      · rw [if_neg hkey]

/-- **Every walk keeps it.** -/
theorem walk_tracks (trackable : Nat) (operations : List QueuedOperation) :
    ((operations.map record).foldl (Walk.visit trackable) ⟨[], ∅, false⟩).Tracks
      trackable operations := by
  induction operations using reverseRecOn with
  | nil => exact Walk.Tracks.nil trackable
  | append_singleton operations operation ih =>
    rw [map_append, foldl_append]
    exact ih.visit operation

theorem takeWalk_reads (trackable : Nat) (records : List (QueuedOperationId × Bytes))
    (hlen : ∀ record ∈ records, record.2.length < 2 ^ 64) : ∀ walk,
    Reads (takeWalk trackable records.length walk) (records.flatMap putRecord)
      (records.foldl (Walk.visit trackable) walk) 0 := by
  induction records with
  | nil => exact fun walk => Reads.pure walk
  | cons record records ih =>
    intro walk
    obtain ⟨hrecord, hrecords⟩ := forall_mem_cons.mp hlen
    have hreads : Reads takeRecord (putRecord record) record 0 :=
      fun _ _ => takeRecord_run_ok.mpr ⟨rfl, hrecord⟩
    exact Reads.bind' hreads (ih hrecords _)

/-! ## §4. The selection. -/

/-- The loop charges the tracked entities' latest operations one after another. -/
theorem selectLoop_ok (budget : Nat) (untracked : Bool) (items : List QueuedOperation) :
    ∀ (latest : FinMap Bytes (Nat × (QueuedOperationId × Bytes))) (charged : Nat)
      (selected : List (QueuedOperationId × Bytes)),
    (items.map entity).Nodup →
    (∀ item ∈ items, latest.lookup (entityBytes item.entity) =
      some (item.retainedBytes, item.record)) →
    charged + (items.map retainedBytes).sum ≤ U64_MAX →
    ∃ refused, selectLoop budget untracked (items.map fun item => entityBytes item.entity) latest
        charged selected = .ok (selected ++
          (fitting retainedBytes budget charged items).map record,
          refused) ∧
      (∀ next rest, items =
          fitting retainedBytes budget charged items ++ next :: rest →
        refused = some (charged + ((fitting retainedBytes budget charged items).map
          retainedBytes).sum + next.retainedBytes)) ∧
      (items = fitting retainedBytes budget charged items →
        refused = if untracked then some (max
          (saturatingAdd (charged + (items.map retainedBytes).sum)
            MIN_RETAINED_RECORD_LEN) (saturatingAdd budget 1)) else none) := by
  induction items with
  | nil =>
    intro latest charged selected _ _ _
    refine ⟨_, ?_, fun next rest h => ?_, fun _ => rfl⟩
    · show Except.ok (selected, _) = Except.ok (selected ++ [], _)
      rw [append_nil]
      rfl
    · exact absurd h (by simp)
  | cons item items ih =>
    intro latest charged selected hnodup hlookup hsum
    rw [map_cons, sum_cons, ← Nat.add_assoc] at hsum
    obtain ⟨hitem, hitems⟩ := forall_mem_cons.mp hlookup
    rw [map_cons, nodup_cons] at hnodup
    have hexact : saturatingAdd charged item.retainedBytes = charged + item.retainedBytes :=
      Nat.min_eq_left (by omega)
    have hstep : selectLoop budget untracked
        ((item :: items).map fun item => entityBytes item.entity) latest charged selected =
        if charged + item.retainedBytes > budget then
          .ok (selected, some (charged + item.retainedBytes))
        else selectLoop budget untracked (items.map fun item => entityBytes item.entity)
          (latest.erase (entityBytes item.entity)) (charged + item.retainedBytes)
          (selected ++ [item.record]) := by
      rw [map_cons, selectLoop, hitem]
      show (if saturatingAdd charged item.retainedBytes > budget then _ else _) = _
      rw [hexact]
    rw [hstep]
    by_cases hfits : charged + item.retainedBytes ≤ budget
    · have hlater : ∀ other ∈ items, (latest.erase (entityBytes item.entity)).lookup
          (entityBytes other.entity) = some (other.retainedBytes, other.record) := by
        intro other hother
        rw [FinMap.lookup_erase_eq, if_neg, hitems other hother]
        intro heq
        exact hnodup.1 (entityBytes_injective heq ▸ mem_map_of_mem hother)
      obtain ⟨refused, hloop, hnext, hall⟩ := ih _ _ (selected ++ [item.record]) hnodup.2 hlater hsum
      have hfitting : fitting retainedBytes budget charged (item :: items) =
          item :: fitting retainedBytes budget (charged + item.retainedBytes) items := by
        rw [fitting, if_pos hfits]
      rw [if_neg (by omega), hloop, hfitting]
      refine ⟨refused, ?_, fun next rest h => ?_, fun h => ?_⟩
      · rw [append_assoc]
        rfl
      · rw [hnext next rest (cons.inj h).2, map_cons, sum_cons, ← Nat.add_assoc]
      · rw [hall (cons.inj h).2, map_cons, sum_cons, ← Nat.add_assoc]
    · have hfitting : fitting retainedBytes budget charged (item :: items) = [] := by
        rw [fitting, if_neg hfits]
      rw [if_pos (by omega), hfitting]
      refine ⟨some (charged + item.retainedBytes), ?_, fun next rest h => ?_, fun h => ?_⟩
      · rw [map_nil, append_nil]
      · obtain ⟨rfl, -⟩ := cons.inj h
        rfl
      · exact nomatch h

/-- The bytes of a value cover what its operations retain. -/
theorem sum_retainedBytes_le {value : Bytes} {queue : OperationQueue}
    (h : OperationQueue.decode value = .ok queue) :
    (queue.operations.map retainedBytes).sum ≤ value.length := by
  have hinsert : ∀ operation : QueuedOperation,
      (putInsert .ifAbsent operation).length = operation.retainedBytes := by
    intro operation
    rw [← putRecord_putBody]
    exact (putRawInsert_length _).trans (congrArg retainedLen (putBody_length operation))
  rw [← OperationQueue.encode_of_decode h, OperationQueue.encode, length_append,
    length_flatMap]
  simp only [hinsert]
  exact Nat.le_add_left _ _

/-- No more operations fit than the walk tracks. -/
theorem length_le_trackable (h : (operations.map retainedBytes).sum ≤ budget) :
    operations.length ≤ budget / MIN_RETAINED_RECORD_LEN := by
  have hmin := card_nsmul_le_sum (operations.map retainedBytes)
    MIN_RETAINED_RECORD_LEN (by
      intro retained hmem
      obtain ⟨operation, -, rfl⟩ := mem_map.mp hmem
      exact min_le_retainedBytes operation)
  rw [length_map] at hmin
  exact (Nat.le_div_iff_mul_le (by decide)).mpr (hmin.trans h)

/-- The walk over a value that decodes sees its operations. -/
theorem takeLatest_ok {value : Bytes} {queue : OperationQueue} (trackable : Nat)
    (h : OperationQueue.decode value = .ok queue) :
    (∃ cursor, parseHeader value = .ok (queue.family, cursor) ∧
      Reader.finish (trailingBytes "operation queue value") (takeLatest trackable) cursor =
        .ok ((queue.operations.map record).foldl (Walk.visit trackable)
          ⟨[], ∅, false⟩)) ∧
    ∀ operation ∈ queue.operations,
      decodeBody queue.family operation.id (putBody operation) = .ok operation := by
  obtain ⟨records, hne, hcount, hbodies, -, hvalue, hitems⟩ :=
    decodeUnique_eq_ok.mp (OperationQueue.decode_eq_ok.mp h)
  have hrecords : records = queue.operations.map record :=
    records_eq_of_decode hitems
  have hminimum : records.length * (MODE_LEN + OPERATION_ID_LEN + 1) ≤
      (records.flatMap putRecord).length := by
    have hmin := minimum_le_flatMap_putRawInsert
      (records.map fun record => ⟨.ifAbsent, record.1, record.2⟩)
    rwa [length_map, flatMap_map] at hmin
  have hreads : Reads (takeLatest trackable) (putVarint 0
      ++ (putVarint records.length ++ records.flatMap putRecord))
      (records.foldl (Walk.visit trackable) ⟨[], ∅, false⟩) 0 := by
    refine Reads.bind' (takeVarint_reads (by decide)) (Reads.rejectIf_bind (by decide) ?_)
    refine Reads.bind (boundedCount_reads (by decide) hcount) (Reads.rejectIf_bind ?_ ?_) hminimum
    · rwa [length_eq_zero_iff]
    · exact takeWalk_reads trackable records hbodies _
  refine ⟨⟨_, parseHeader_eq_ok.mpr hvalue, ?_⟩, ?_⟩
  · rw [← hrecords]
    exact Reads.finish_eq hreads
  · rw [hrecords, forall₂_map_left_iff] at hitems
    intro operation hmem
    obtain ⟨i, hi, rfl⟩ := getElem_of_mem hmem
    exact List.Forall₂.get hitems hi hi

/-- The tracked entities' latest operations are the first of all latest ones. -/
theorem Walk.Tracks.items {walk : Walk}
    (h : walk.Tracks trackable operations) {items : List QueuedOperation}
    (hitems : items = (lastItems entity operations).take trackable) :
    walk.order = (items.map fun item => entityBytes item.entity) ∧
      (items.map entity).Nodup ∧
      ∀ item ∈ items, walk.latest.lookup (entityBytes item.entity) =
        some (item.retainedBytes, item.record) := by
  have hkeys : items.map entity =
      (firstKeys entity operations).take trackable := by
    rw [hitems, map_take, map_key_lastItems]
  refine ⟨?_, ?_, fun item hitem => ?_⟩
  · rw [h.order_eq, ← hkeys, map_map]
    rfl
  · rw [hkeys]
    exact (nodup_firstKeys operations).sublist (take_sublist _ _)
  · have hlast : item ∈ lastItems entity operations :=
      mem_of_mem_take (hitems ▸ hitem)
    rw [h.latest_eq, if_pos (hkeys ▸ mem_map_of_mem hitem), (mem_lastItems hlast).2]
    rfl

/-- What the loop over the tracked operations reports of all latest operations. -/
theorem selectLoop_selects {untracked : Bool}
    {latest : List QueuedOperation} (htrackable : trackable = budget / MIN_RETAINED_RECORD_LEN)
    (huntracked : untracked = true ↔ trackable < latest.length)
    {walk : Walk} (horder : walk.order = ((latest.take trackable).map fun item =>
      entityBytes item.entity))
    (hnodup : ((latest.take trackable).map entity).Nodup)
    (hlookup : ∀ item ∈ latest.take trackable, walk.latest.lookup (entityBytes item.entity) =
      some (item.retainedBytes, item.record)) (hsum : (latest.map retainedBytes).sum ≤ U64_MAX) :
    ∃ refused, selectLoop budget untracked walk.order walk.latest 0 [] =
        .ok ((fitting retainedBytes budget 0 latest).map record,
          refused) ∧
      (refused = none ∧ fitting retainedBytes budget 0 latest = latest ∨
        ∃ reach next rest, refused = some reach ∧
          latest = fitting retainedBytes budget 0 latest ++ next :: rest ∧
          (budget < U64_MAX → budget < reach) ∧
          reach ≤ ((fitting retainedBytes budget 0 latest).map
            retainedBytes).sum + next.retainedBytes) := by
  generalize hselected : fitting retainedBytes budget 0 latest = chosen
  have hfits : (chosen.map retainedBytes).sum ≤ budget := by
    have hle := fitting_sum_le retainedBytes budget latest (Nat.zero_le budget)
    rwa [Nat.zero_add, hselected] at hle
  have hcap : chosen.length ≤ trackable := htrackable ▸ length_le_trackable hfits
  have htake : fitting retainedBytes budget 0 (latest.take trackable) = chosen := by
    rw [fitting_take _ _ _ (hselected ▸ hcap), hselected]
  have hpart : ((latest.take trackable).map retainedBytes).sum ≤
      (latest.map retainedBytes).sum :=
    ((take_sublist _ _).map _).sum_le_sum fun _ _ => Nat.zero_le _
  obtain ⟨refused, hloop, hnext, hall⟩ := selectLoop_ok budget untracked
    (latest.take trackable) walk.latest 0 [] hnodup hlookup (by omega)
  rw [htake] at hloop hnext hall
  refine ⟨refused, by rw [horder]; exact hloop, ?_⟩
  obtain ⟨tail, htail⟩ : chosen <+: latest := hselected ▸ fitting_starts _ _ _ _
  cases tail with
  | nil =>
    -- everything was selected, so everything was tracked
    rw [append_nil] at htail
    have hlen : latest.length ≤ trackable := htail ▸ hcap
    rw [take_of_length_le hlen] at hall
    refine .inl ⟨?_, htail⟩
    rw [hall htail.symm, if_neg fun h => absurd (huntracked.mp h) (by omega)]
  | cons next rest =>
    have hsplit : latest =
        fitting retainedBytes budget 0 latest ++ next :: rest := by
      rw [hselected]
      exact htail.symm
    have hover := fitting_next retainedBytes budget hsplit
    rw [hselected, Nat.zero_add] at hover
    have hlen : chosen.length < latest.length := by
      rw [← htail, length_append, length_cons]
      omega
    by_cases hroom : chosen.length < trackable
    · -- the first operation left out was tracked and charged
      have hcut : latest.take trackable =
          chosen ++ next :: rest.take (trackable - chosen.length - 1) := by
        rw [← htail, take_append, take_of_length_le hcap,
          show trackable - chosen.length = trackable - chosen.length - 1 + 1 by omega]
        rfl
      refine .inr ⟨_, next, rest, hnext next _ hcut, htail.symm, fun _ => ?_, ?_⟩
      · rwa [Nat.zero_add]
      · rw [Nat.zero_add]
    · -- the selection ends where the tracking does
      have hcut : latest.take trackable = chosen := by
        rw [← htail, show trackable = chosen.length by omega, take_left]
      have hmin := min_le_retainedBytes next
      have hsat : ∀ a b, saturatingAdd a b ≤ a + b := fun a b => min_le_left _ _
      rw [hcut, if_pos (huntracked.mpr (by omega))] at hall
      refine .inr ⟨_, next, rest, hall rfl, htail.symm, fun hbudget => ?_, max_le ?_ ?_⟩
      · have hexact : saturatingAdd budget 1 = budget + 1 := Nat.min_eq_left (by omega)
        exact lt_max_of_lt_right (by omega)
      · exact (hsat _ _).trans (by omega)
      · exact (hsat _ _).trans (by omega)

/-- **The selection is the longest that fits**: on a value that decodes, each
entity's last queued operation, in the order of the entities' first ones, as far
as their retained bytes fit the budget; a refusal names a reach past the budget
that including the first entity left out does not undercut. -/
theorem latest_decode_selects (value : Bytes) (hvalue : value.length < 2 ^ 64) (budget : UInt64)
    (queue : OperationQueue) (h : OperationQueue.decode value = .ok queue) :
    ∃ result, LatestOperations.decode value budget = .ok result ∧
      result.family = queue.family ∧
      result.operations <+: lastItems entity queue.operations ∧
      (result.operations.map retainedBytes).sum ≤ budget.toNat ∧
      (∀ part, part <+: lastItems entity queue.operations →
        (part.map retainedBytes).sum ≤ budget.toNat →
        part.length ≤ result.operations.length) ∧
      (result.refused.isSome ↔
        result.operations ≠ lastItems entity queue.operations) ∧
      ∀ reach, result.refused = some reach →
        (budget.toNat < U64_MAX → budget.toNat < reach) ∧
        ∃ next rest, lastItems entity queue.operations =
            result.operations ++ next :: rest ∧
          reach ≤ (result.operations.map retainedBytes).sum
            + next.retainedBytes := by
  obtain ⟨⟨cursor, hheader, hwalk⟩, hdecode⟩ :=
    takeLatest_ok (budget.toNat / MIN_RETAINED_RECORD_LEN) h
  have htracks := walk_tracks (budget.toNat / MIN_RETAINED_RECORD_LEN) queue.operations
  obtain ⟨horder, hnodup, hlookup⟩ := htracks.items rfl
  have hcount : (firstKeys entity queue.operations).length =
      (lastItems entity queue.operations).length := by
    rw [← map_key_lastItems, length_map]
  have hsum : ((lastItems entity queue.operations).map
      retainedBytes).sum ≤ U64_MAX := by
    have hbytes := sum_retainedBytes_le h
    have hlast : ((lastItems entity queue.operations).map _).sum ≤ _ :=
      sum_lastItems_le retainedBytes queue.operations
    have hmax : value.length ≤ U64_MAX := Nat.le_sub_one_of_lt hvalue
    omega
  obtain ⟨refused, hloop, hrefused⟩ := selectLoop_selects rfl
    (htracks.untracked_iff.trans (by rw [hcount])) horder hnodup hlookup hsum
  have hstarts := fitting_starts retainedBytes budget.toNat
    (lastItems entity queue.operations) 0
  have hoperations := (mapM_map (f := record)
    (g := fun record => decodeBody queue.family record.1 record.2)).trans
      (mapM_eq_map (g := fun operation => operation) fun operation hmem =>
        hdecode operation (mem_lastItems (hstarts.subset hmem)).1)
  rw [map_id'] at hoperations
  refine ⟨⟨queue.family, _, refused⟩, ?_, rfl, hstarts, ?_, fun part hpart hfits => ?_, ?_, ?_⟩
  · refine except_bind_eq_ok.mpr ⟨_, hheader, except_bind_eq_ok.mpr ⟨_, hwalk, ?_⟩⟩
    exact except_bind_eq_ok.mpr ⟨_, hloop, except_bind_eq_ok.mpr ⟨_, hoperations, rfl⟩⟩
  · have hle := fitting_sum_le retainedBytes budget.toNat
      (lastItems entity queue.operations) (Nat.zero_le budget.toNat)
    rwa [Nat.zero_add] at hle
  · exact (fitting_longest _ _ _ hpart (by rwa [Nat.zero_add])).length_le
  · obtain ⟨hnone, hall⟩ | ⟨reach, next, rest, hsome, hsplit, -, -⟩ := hrefused
    · rw [hnone]
      exact ⟨(fun h => nomatch h), fun h => absurd hall h⟩
    · rw [hsome]
      refine ⟨fun _ heq => ?_, fun _ => rfl⟩
      have hlen := congrArg length hsplit
      rw [length_append, length_cons, show length _ = _ from congrArg length heq]
        at hlen
      omega
  · intro reach hreach
    obtain ⟨hnone, -⟩ | ⟨reach', next, rest, hsome, hsplit, hexceeds, hbound⟩ := hrefused
    · exact nomatch hnone.symm.trans hreach
    · obtain rfl := Option.some.inj (hsome.symm.trans hreach)
      exact ⟨hexceeds, next, rest, hsplit, hbound⟩

/-- Two deletions of node 7 with one of node 9 between them. -/
def repeatedDeletions : OperationQueue :=
  ⟨.text, [nodeSevenDeletion, ⟨⟨6#128, by decide⟩, ⟨.node, 9⟩, .text ⟨none⟩⟩,
    ⟨⟨8#128, by decide⟩, ⟨.node, 7⟩, .text ⟨none⟩⟩]⟩

/-- A budget for one operation selects no more than node 7's second one, and
refuses node 9's. -/
theorem latest_of_repeatedDeletions :
    ∃ result, LatestOperations.decode repeatedDeletions.encode 21 = .ok result ∧
      result.operations <+: [⟨⟨8#128, by decide⟩, ⟨.node, 7⟩, .text ⟨none⟩⟩,
        ⟨⟨6#128, by decide⟩, ⟨.node, 9⟩, .text ⟨none⟩⟩] ∧
      result.refused.isSome := by
  obtain ⟨result, hresult, -, hstarts, hsum, -, hrefused, -⟩ :=
    latest_decode_selects repeatedDeletions.encode (by decide +kernel) 21 repeatedDeletions
      (by decide +kernel)
  refine ⟨result, hresult, hstarts, hrefused.mpr fun hall => ?_⟩
  rw [hall] at hsum
  exact absurd hsum (by decide +kernel)

end HelixDb.Queue
