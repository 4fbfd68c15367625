/-
  HelixDb.OperationQueue.History

  **EVERY GROUPING OF A VALID HISTORY RESOLVES TO THE SAME QUEUE.**

  A history is what storage presents for one queue key: enqueue and acknowledge
  operands, oldest first, each ID inserted by one operand and removed by at most
  one later operand.  The store may merge contiguous runs of the operands with
  nested `merge_partial` calls, at any time, and resolve a prefix with
  `merge_with_base`, as often as it likes.

    • `mergeCall_combines` — one `merge_partial` call on the values of
      neighbouring runs returns the value of the joined run,
    • `resolved_queue_holds_outstanding` — **the resolved queue** holds exactly
      the operations inserted and never removed, in commit order, with their
      body bytes.
-/
import HelixDb.Lib.Grouping
import HelixDb.OperationQueue.Content
import HelixDb.OperationQueue.Frame

namespace HelixDb.Queue

open HelixDb.Lib HelixDb.Encoding List
open Grouping (leavesList evalList)
open QueuedOperation (toInsert)

/-! ## §1. Valid histories. -/

/-- A history storage can present for one queue key of one family. -/
structure ValidHistory (family : QueueFamily) (history : List Operand) : Prop where
  /-- Every operand was built by `QueueOperand::enqueue` or `::acknowledge`. -/
  built : ∀ operand ∈ history, ∃ q, operand.build family = .ok q
  of_family : ∀ operation ∈ inserted history, operation.payload.family = family
  inserted_once : (insertedIds history).Nodup
  removed_once : (removed history).Nodup
  removed_later : ∀ older operand newer, history = older ++ operand :: newer →
    ∀ id ∈ operand.removes, id ∈ insertedIds older

/-- The lengths the code holds as `usize`: every operation's body, and the
number of operations outstanding at any point. -/
structure Addressable (history : List Operand) : Prop where
  bodies : ∀ operation ∈ inserted history, (putBody operation).length < 2 ^ 64
  backlog : ∀ older, older <+: history → (outstanding older).length < 2 ^ 64

variable {older newer run : List Operand}

section History

variable {family : QueueFamily} {history : List Operand}

section

variable (h : ValidHistory family history)
include h

/-- A removed ID was inserted strictly before the operand that removes it. -/
theorem ValidHistory.removed_inserted
    (hsplit : history = older ++ newer) {id : QueuedOperationId} (hid : id ∈ removed older) :
    id ∈ insertedIds older := by
  obtain ⟨operand, hmem, hremoves⟩ := mem_flatMap.mp hid
  obtain ⟨before, after, rfl⟩ := append_of_mem hmem
  have hins := h.removed_later before operand (after ++ newer) (by rw [hsplit]; simp) id hremoves
  rw [insertedIds_append]
  exact mem_append_left _ hins

theorem ValidHistory.coherent : Coherent history := by
  refine ⟨h.inserted_once, h.removed_once, ?_⟩
  intro older newer hsplit id hid hmem
  have hins := h.inserted_once
  rw [hsplit, insertedIds_append, nodup_append] at hins
  exact hins.2.2 id (h.removed_inserted hsplit hid) id hmem rfl

theorem ValidHistory.of_older
    (hold : older <+: history) : ValidHistory family older := by
  obtain ⟨newer, rfl⟩ := hold
  have hcoherent := h.coherent.of_part (prefix_append older newer).isInfix
  refine ⟨?_, ?_, hcoherent.inserted_once, hcoherent.removed_once, ?_⟩
  · intro operand hmem
    exact h.built operand (mem_append_left _ hmem)
  · intro operation hmem
    refine h.of_family operation ?_
    rw [inserted_append]
    exact mem_append_left _ hmem
  · intro before operand after hsplit id hid
    exact h.removed_later before operand (after ++ newer) (by rw [hsplit]; simp) id hid

/-- **Surviving removals name earlier operations**: each one was outstanding
just before the run. -/
theorem ValidHistory.removes_outstanding (hsplit : history = older ++ run ++ newer)
    {id : QueuedOperationId} (hid : id ∈ (content run).removes) : id ∈ (content older).ids := by
  obtain ⟨hremoved, hnot⟩ := (mem_content_removes run id).mp hid
  have hins : id ∈ insertedIds (older ++ run) := by
    refine h.removed_inserted hsplit ?_
    rw [removed_append]
    exact mem_append_right _ hremoved
  rw [insertedIds_append, mem_append] at hins
  have hcoherent : Coherent (older ++ run) :=
    h.coherent.of_part (hsplit ▸ (prefix_append (older ++ run) newer).isInfix)
  rw [mem_content_ids]
  exact ⟨hins.resolve_right hnot, fun hr => (hcoherent.parts id).2.1 hr hremoved⟩

/-- No more removals survive than operations were outstanding before. -/
theorem ValidHistory.removes_card_le (hsplit : history = older ++ run ++ newer) :
    (content run).removes.card ≤ (outstanding older).length := by
  have hsub : (content run).removes ⊆ (content older).ids.toFinset := by
    intro id hid
    rw [mem_toFinset]
    exact h.removes_outstanding hsplit hid
  have hlen : (content older).ids.length = (outstanding older).length := by
    rw [content_ids, length_map]
  rw [← hlen]
  exact le_trans (Finset.card_le_card hsub) (toFinset_card_le _)

/-- Operations a run leaves live are outstanding after it. -/
theorem ValidHistory.outstanding_sublist (hsplit : history = older ++ run ++ newer) :
    (outstanding run).Sublist (outstanding (older ++ run)) := by
  have hcoherent : Coherent (older ++ run) :=
    h.coherent.of_part (hsplit ▸ (prefix_append (older ++ run) newer).isInfix)
  rw [outstanding_append hcoherent]
  exact sublist_append_right _ _

/-- **The value of every run of a valid history can be read back.** -/
theorem ValidHistory.content_wellFormed
    (haddr : Addressable history) (hrun : run <:+: history) :
    ((content run).toRaw family).WellFormed := by
  obtain ⟨older, newer, hsplit⟩ := hrun
  have hsplit := hsplit.symm
  have hcoherent := h.coherent.of_part ⟨older, newer, hsplit.symm⟩
  -- every live insert is the record of an operation of the history
  have hops : ∀ i ∈ (content run).live, ∃ o ∈ inserted history, o.toInsert = i := by
    intro i hi
    obtain ⟨o, ho, rfl⟩ := mem_map.mp hi
    refine ⟨o, ?_, rfl⟩
    rw [hsplit, inserted_append, inserted_append]
    exact mem_append_left _ (mem_append_right _ (mem_of_mem_filter ho))
  have hold : older <+: history := ⟨run ++ newer, by rw [hsplit, append_assoc]⟩
  have hnew : older ++ run <+: history := ⟨newer, hsplit.symm⟩
  constructor
  · show ((content run).removes.sort (· ≤ ·)).Pairwise (· < ·)
    exact (Finset.sortedLT_sort _).pairwise
  · exact content_ids_nodup hcoherent.inserted_once
  · intro i hi hmem
    have hid : i.id ∈ (content run).ids := mem_map_of_mem hi
    rw [mem_content_ids] at hid
    rw [mem_toRaw_removes, mem_content_removes] at hmem
    exact hmem.2 hid.1
  · intro i hi
    obtain ⟨o, ho, rfl⟩ := hops i hi
    rw [← h.of_family o ho]
    exact (validateBody_iff _ o.id _).mpr ⟨o, decodeBody_putBody o (haddr.bodies o ho)⟩
  · show ((content run).removes.sort (· ≤ ·)).length < 2 ^ 64
    rw [Finset.length_sort]
    exact lt_of_le_of_lt (h.removes_card_le hsplit) (haddr.backlog older hold)
  · show ((outstanding run).map toInsert).length < 2 ^ 64
    rw [length_map]
    exact lt_of_le_of_lt (h.outstanding_sublist hsplit).length_le (haddr.backlog _ hnew)
  · intro i hi
    obtain ⟨o, ho, rfl⟩ := hops i hi
    exact haddr.bodies o ho

end

/-! ## §2. Operands as values. -/

theorem putInsert_eq (operation : QueuedOperation) :
    putInsert .ifAbsent operation = putRawInsert operation.toInsert := by
  unfold putInsert
  rw [← putBody_length]
  rfl

/-- The bytes `enqueueLoop` appends. -/
theorem enqueueLoop_bytes (operations : List QueuedOperation) :
    ∀ ids entities written q, enqueueLoop family operations ids entities written = .ok q →
      q.bytes = written.bytes ++ (operations.map toInsert).flatMap putRawInsert := by
  induction operations with
  | nil =>
    intro ids entities written q hq
    cases hq
    simp
  | cons operation operations ih =>
    intro ids entities written q hq
    unfold enqueueLoop at hq
    split_ifs at hq
    rw [ih _ _ _ _ hq, map_cons, flatMap_cons, putInsert_eq, append_assoc]

theorem content_enqueue (operations : List QueuedOperation) :
    content [.enqueue operations] = ⟨∅, operations.map toInsert⟩ := by
  simp [content, outstanding, inserted, removed, Operand.inserts, Operand.removes]

theorem content_acknowledge (ids : List QueuedOperationId) :
    content [.acknowledge ids] = ⟨ids.toFinset, []⟩ := by
  simp [content, outstanding, inserted, insertedIds, removed, Operand.inserts, Operand.removes]

/-- **An operand's bytes are the value of its one-operand run.** -/
theorem ValidHistory.build_bytes (h : ValidHistory family history) {operand : Operand}
    (hmem : [operand] <:+: history) :
    ∃ q, operand.build family = .ok q ∧ q.bytes = ((content [operand]).toRaw family).encode := by
  have hin : operand ∈ history := hmem.subset mem_cons_self
  obtain ⟨q, hq⟩ := h.built operand hin
  refine ⟨q, hq, ?_⟩
  cases operand with
  | enqueue operations =>
    cases operations with
    | nil => cases hq
    | cons first rest =>
      have hfamily : first.payload.family = family :=
        h.of_family first (mem_flatMap.mpr ⟨_, hin, mem_cons_self⟩)
      have hbytes := enqueueLoop_bytes _ _ _ _ _ hq
      rw [hbytes, content_enqueue, hfamily]
      simp [RawValue.encode, RawValue.encodeRecords, Pending.toRaw]
  | acknowledge ids =>
    have hnodup : ids.Nodup := by
      have hrem := (h.coherent.of_part hmem).removed_once
      simpa [removed, Operand.removes] using hrem
    have hsort : ids.toFinset.sort (· ≤ ·) = ids.insertionSort (· ≤ ·) := by
      have hperm : (ids.insertionSort (· ≤ ·)).toFinset = ids.toFinset :=
        toFinset_eq_of_perm _ _ (perm_insertionSort _ ids)
      rw [← hperm, toFinset_sort _ ((perm_insertionSort _ ids).nodup_iff.mpr hnodup)]
      exact pairwise_insertionSort _ ids
    unfold Operand.build QueueOperand.acknowledge at hq
    simp only at hq
    split_ifs at hq
    cases hq
    rw [content_acknowledge]
    simp [RawValue.encode, RawValue.encodeRecords, Pending.toRaw, hsort]

/-! ## §3. Merging neighbouring runs. -/

/-- The bytes an operand reaches the store as. -/
def operandBytes (family : QueueFamily) (operand : Operand) : Except EncodingError Bytes := do
  let q ← operand.build family
  return q.bytes

/-- One call of the merge operator without a base: the oldest value is passed
as the existing value (`true`) or as the first operand (`false`). -/
def mergeCall (withExisting : Bool) (first : Bytes) (rest : List Bytes) :
    Except EncodingError Bytes :=
  if withExisting then mergePartial (some first) rest else mergePartial none (first :: rest)

theorem mergeCall_eq (withExisting : Bool) (first : Bytes) (rest : List Bytes) :
    mergeCall withExisting first rest = mergePartial none (first :: rest) := by
  cases withExisting <;> rfl

/-- Following the values of neighbouring runs joins their contents. -/
theorem foldl_follow_content (family : QueueFamily) (runs : List (List Operand)) :
    ∀ older : List Operand, Coherent (older ++ runs.flatten) →
      (runs.map fun run => (content run).toRaw family).foldl Pending.follow (content older)
        = content (older ++ runs.flatten) := by
  induction runs with
  | nil =>
    intro older _
    rw [flatten_nil, append_nil]
    rfl
  | cons run runs ih =>
    intro older h
    rw [flatten_cons, ← append_assoc] at h ⊢
    have hjoin : Coherent (older ++ run) := h.of_part (prefix_append _ _).isInfix
    rw [map_cons, foldl_cons, content_append family hjoin]
    exact ih (older ++ run) h

/-- The values of some runs of the history, as the store holds them. -/
def runValues (family : QueueFamily) (runs : List (List Operand)) : List RawValue :=
  runs.map fun run => (content run).toRaw family

theorem ValidHistory.runValues_wellFormed (h : ValidHistory family history)
    (haddr : Addressable history) {runs : List (List Operand)}
    (hruns : ∀ run ∈ runs, run <:+: history) :
    ∀ v ∈ runValues family runs, v.WellFormed ∧ v.family = family := by
  intro v hv
  obtain ⟨run, hrun, rfl⟩ := mem_map.mp hv
  exact ⟨h.content_wellFormed haddr (hruns run hrun), rfl⟩

/-- What the store holds for a run of the history. -/
def HoldsRun (family : QueueFamily) (history run : List Operand) (bytes : Bytes) : Prop :=
  run <:+: history ∧ bytes = ((content run).toRaw family).encode

/-- Values of neighbouring runs, separated into the runs and the bytes. -/
theorem holdsRun_parts {parts : List (List Operand × Bytes)}
    (hrel : ∀ p ∈ parts, HoldsRun family history p.1 p.2) :
    (∀ run ∈ parts.map Prod.fst, run <:+: history) ∧
      parts.map Prod.snd = (runValues family (parts.map Prod.fst)).map RawValue.encode := by
  constructor
  · intro run hrun
    obtain ⟨p, hp, rfl⟩ := mem_map.mp hrun
    exact (hrel p hp).1
  · unfold runValues
    rw [map_map, map_map]
    exact map_congr_left fun p hp => (hrel p hp).2

/-- **One merge call on neighbouring runs** of a valid history returns the
value of the joined run. -/
theorem mergeCall_combines (h : ValidHistory family history) (haddr : Addressable history) :
    Grouping.Combines (fun _ => False) (· <:+: history) (HoldsRun family history) mergeCall := by
  intro withExisting x xs hrel hadm
  obtain ⟨hpart, hbytes⟩ := holdsRun_parts hrel
  have hwf := h.runValues_wellFormed haddr hpart
  have hflat : (x :: xs).flatMap Prod.fst = ((x :: xs).map Prod.fst).flatten := flatMap_def
  have hmerge := mergePartial_encode family none (x.2 :: xs.map Prod.snd) _ hbytes
    (fun v hv => (hwf v hv).1) (fun v hv => (hwf v hv).2) (by simp [runValues])
  rw [mergeCall_eq, hmerge]
  refine ⟨hadm, ?_⟩
  have hcontent := foldl_follow_content family ((x :: xs).map Prod.fst) []
    (hflat ▸ h.coherent.of_part hadm)
  exact congrArg (fun p => (Pending.toRaw p family).encode) hcontent

/-- An operand is the value of its one-operand run. -/
theorem ValidHistory.operandBytes_holdsRun (h : ValidHistory family history) (operand : Operand)
    (hmem : [operand] <:+: history) :
    Grouping.Yields (fun _ => False) (HoldsRun family history [operand])
      (operandBytes family operand) := by
  obtain ⟨q, hq, hbytes⟩ := h.build_bytes hmem
  unfold operandBytes
  rw [hq]
  exact ⟨hmem, hbytes⟩

/-! ## §4. The resolved queue. -/

/-- The stored base a resolution leaves behind; the empty queue is absent. -/
def QueueMergeResult.toBase : QueueMergeResult → Option Bytes
  | .value bytes => some bytes
  | .empty => none

/-- The result of resolving a history: nothing yet, or the base so far with
some groups of newer operands merged onto it. -/
inductive Resolves (family : QueueFamily) : List Operand → QueueMergeResult → Prop where
  | absent : Resolves family [] .empty
  | onto {older : List Operand} {base result : QueueMergeResult}
      {groups : List (Grouping Bool Operand)} {operands : List Bytes} :
      Resolves family older base →
      evalList (operandBytes family) mergeCall groups = .ok operands →
      mergeWithBase base.toBase operands = .ok result →
      Resolves family (older ++ leavesList groups) result

/-- What a result says of the operations still in the queue: they are read
back in order, as records with their body bytes and as decoded operations; an
absent queue has none. -/
def QueueMergeResult.Holds (result : QueueMergeResult) (family : QueueFamily)
    (operations : List QueuedOperation) : Prop :=
  match result with
  | .empty => operations = []
  | .value bytes =>
    operations ≠ [] ∧
    decodeUnique (fun _ id body => .ok (id, body)) bytes
      = .ok (family, operations.map fun o => (o.id, putBody o)) ∧
    OperationQueue.decode bytes = .ok ⟨family, operations⟩

/-- The result a valid history resolves to. -/
def queueOf (family : QueueFamily) (history : List Operand) : QueueMergeResult :=
  if outstanding history = [] then .empty
  else .value ((content history).toRaw family).encode

section

variable (h : ValidHistory family history)
include h

/-- A whole history leaves no removal behind. -/
theorem ValidHistory.content_removes :
    (content history).removes = ∅ := by
  rw [Finset.eq_empty_iff_forall_notMem]
  intro id hid
  obtain ⟨hremoved, hnot⟩ := (mem_content_removes history id).mp hid
  exact hnot (h.removed_inserted (append_nil history).symm hremoved)

theorem ValidHistory.toResolved_eq :
    (content history).toResolved family = (content history).toRaw family := by
  unfold Pending.toResolved Pending.toRaw
  rw [h.content_removes, Finset.sort_empty]
  congr 1
  show ((outstanding history).map toInsert).map _ = _
  rw [map_map]
  rfl

/-- The queue of a valid history is read back as its outstanding operations. -/
theorem ValidHistory.queueOf_holds
    (haddr : Addressable history) : (queueOf family history).Holds family (outstanding history) := by
  have hwf := h.content_wellFormed haddr (infix_refl history)
  have hmem : ∀ o ∈ outstanding history, o ∈ inserted history :=
    fun o ho => mem_of_mem_filter ho
  -- a whole history removes nothing of an earlier one
  have hraw : (content history).toRaw family = ⟨family, [], (outstanding history).map toInsert⟩ := by
    unfold Pending.toRaw
    rw [h.content_removes, Finset.sort_empty]
    rfl
  unfold queueOf
  rw [hraw] at hwf ⊢
  by_cases hempty : outstanding history = []
  · rwa [if_pos hempty]
  · rw [if_neg hempty]
    -- both readers see the records of the outstanding operations
    have hread : ∀ {T : Type} {decode : QueueFamily → QueuedOperationId → Bytes →
        Except EncodingError T} {item : QueuedOperation → T},
        (∀ o ∈ outstanding history, decode family o.id (putBody o) = .ok (item o)) →
        decodeUnique decode
          (RawValue.mk family [] ((outstanding history).map toInsert)).encode =
            .ok (family, (outstanding history).map item) := by
      intro T decode item hdecode
      have hlt := hwf.inserts_lt
      have hids := hwf.inserts_nodup
      rw [length_map] at hlt
      rw [map_map] at hids
      refine decodeUnique_eq_ok.mpr ⟨(outstanding history).map fun o => (o.id, putBody o), ?_, ?_,
        ?_, ?_, ?_, ?_⟩
      · exact fun h => hempty (map_eq_nil_iff.mp h)
      · rwa [length_map]
      · exact forall_mem_map.mpr fun o ho => hwf.bodies_lt _ (mem_map_of_mem ho)
      · rwa [map_map]
      · rw [RawValue.encode, RawValue.encodeRecords, length_map, length_map, flatMap_map, flatMap_map]
        rfl
      · rw [forall₂_map_left_iff, forall₂_map_right_iff]
        exact forall₂_same.mpr hdecode
    refine ⟨hempty, hread fun _ _ => rfl, ?_⟩
    have hdecode : ∀ o ∈ outstanding history,
        decodeBody family o.id (putBody o) = .ok (id o) := by
      intro o ho
      rw [← h.of_family o (hmem o ho)]
      exact decodeBody_putBody o (haddr.bodies o (hmem o ho))
    have hqueue := hread hdecode
    rw [map_id] at hqueue
    exact OperationQueue.decode_eq_ok.mpr hqueue

end

/-- The values of a stored base: none for the empty queue. -/
def baseValues (family : QueueFamily) (older : List Operand) : List RawValue :=
  if outstanding older = [] then [] else [(content older).toRaw family]

theorem toBase_queueOf (older : List Operand) :
    (queueOf family older).toBase.toList = (baseValues family older).map RawValue.encode := by
  unfold queueOf baseValues
  split_ifs <;> rfl

section

variable (h : ValidHistory family history)
include h

/-- A stored base stands for the content of its prefix. -/
theorem ValidHistory.foldl_baseValues :
    (baseValues family history).foldl Pending.follow Pending.empty = content history := by
  unfold baseValues
  split_ifs with hempty
  · show Pending.empty = content history
    have hcontent : content history = ⟨(content history).removes, _⟩ := rfl
    rw [hcontent, h.content_removes, hempty]
    rfl
  · exact @content_append [] history family h.coherent

/-- **Resolving newer groups onto the base of a prefix.** -/
theorem ValidHistory.mergeWithBase_eq
    (haddr : Addressable history) {groups : List (Grouping Bool Operand)}
    (hsplit : history = older ++ leavesList groups) :
    ∃ operands, evalList (operandBytes family) mergeCall groups = .ok operands ∧
      mergeWithBase (queueOf family older).toBase operands = .ok (queueOf family history) := by
  have hold : older <+: history := ⟨_, hsplit.symm⟩
  obtain ⟨_, heval, parts, rfl, hleaves, hrel⟩ := (Grouping.evalList_rel
    (fun _ _ hxy hy => hxy.trans hy) h.operandBytes_holdsRun (mergeCall_combines h haddr) groups
    (hsplit ▸ (suffix_append _ _).isInfix)).exists_ok
  obtain ⟨hpart, hbytes⟩ := holdsRun_parts hrel
  have hwf := h.runValues_wellFormed haddr hpart
  have hflat : (parts.map Prod.fst).flatten = leavesList groups := by
    rw [← hleaves]
    exact flatMap_def.symm
  -- the base, where there is one, is a value of the prefix
  have hbase : ∀ v ∈ baseValues family older, v.WellFormed ∧ v.family = family := by
    intro v hv
    unfold baseValues at hv
    split_ifs at hv
    · cases hv
    · rw [mem_singleton.mp hv]
      exact ⟨h.content_wellFormed haddr hold.isInfix, rfl⟩
  have hall : ∀ v ∈ baseValues family older ++ runValues family (parts.map Prod.fst),
      v.WellFormed ∧ v.family = family := by
    intro v hv
    exact (mem_append.mp hv).elim (hbase v) (hwf v)
  have hcontent : (baseValues family older ++ runValues family (parts.map Prod.fst)).foldl
      Pending.follow Pending.empty = content history := by
    rw [foldl_append, (h.of_older hold).foldl_baseValues]
    unfold runValues
    rw [foldl_follow_content family _ older (by rw [hflat, ← hsplit]; exact h.coherent), hflat,
      ← hsplit]
  refine ⟨_, heval, ?_⟩
  rw [mergeWithBase_encode family _ _ _ (by rw [toBase_queueOf, hbytes, map_append])
    (fun v hv => (hall v hv).1) (fun v hv => (hall v hv).2), hcontent, h.toResolved_eq]
  unfold queueOf
  have hlive : (content history).live = [] ↔ outstanding history = [] := map_eq_nil_iff
  simp [hlive]

/-- Every resolution of a prefix is the queue of that prefix. -/
theorem ValidHistory.resolves_eq (haddr : Addressable history) {result : QueueMergeResult} (hresolves : Resolves family older result)
    (hold : older <+: history) : result = queueOf family older := by
  induction hresolves with
  | absent => rfl
  | @onto older base result groups operands _ heval hmerge ih =>
    have hbase := ih ((prefix_append _ _).trans hold)
    have haddr' : Addressable (older ++ leavesList groups) := by
      obtain ⟨newer, hsplit⟩ := hold
      constructor
      · intro o ho
        refine haddr.bodies o ?_
        rw [← hsplit, inserted_append]
        exact mem_append_left _ ho
      · intro older' hold'
        exact haddr.backlog older' (hold'.trans ⟨newer, hsplit⟩)
    obtain ⟨operands', heval', hmerge'⟩ :=
      (h.of_older hold).mergeWithBase_eq haddr'
        (show older ++ leavesList groups = older ++ leavesList groups from rfl)
    rw [heval] at heval'
    cases heval'
    rw [hbase, hmerge'] at hmerge
    exact (Except.ok.inj hmerge).symm

end

end History

/-- **The resolved queue of a valid history.**  Whatever prefix was resolved
before, and however the newer operands are grouped into nested merge calls, the
final resolution succeeds and holds exactly the operations inserted and never
removed. -/
theorem resolved_queue_holds_outstanding (family : QueueFamily) (history : List Operand)
    (h : ValidHistory family history) (haddr : Addressable history) (older : List Operand)
    (base : QueueMergeResult) (hbase : Resolves family older base)
    (groups : List (Grouping Bool Operand))
    (hsplit : history = older ++ leavesList groups) :
    ∃ operands result,
      evalList (operandBytes family) mergeCall groups = .ok operands ∧
      mergeWithBase base.toBase operands = .ok result ∧
      result.Holds family (outstanding history) := by
  obtain ⟨operands, heval, hmerge⟩ := h.mergeWithBase_eq haddr hsplit
  have hold : older <+: history := ⟨_, hsplit.symm⟩
  refine ⟨operands, queueOf family history, heval, ?_, h.queueOf_holds haddr⟩
  rwa [h.resolves_eq haddr hbase hold]

/-! ## §5. A sample history. -/

theorem outstanding_prefix_sublist {older history : List Operand} (h : older <+: history) :
    (outstanding older).Sublist (inserted history) := by
  obtain ⟨newer, rfl⟩ := h
  rw [inserted_append]
  exact filter_sublist.trans (sublist_append_left _ _)

/-- The deletion of a node's text. -/
def sampleDeletion (id : QueuedOperationId) (node : UInt64) : QueuedOperation :=
  ⟨id, ⟨.node, node⟩, .text ⟨none⟩⟩

/-- The first ID of the sample history. -/
def sampleId1 : QueuedOperationId := ⟨1, QueuedOperationId.one_clear⟩
/-- The second ID. -/
def sampleId2 : QueuedOperationId := ⟨2, by decide⟩
/-- The third ID. -/
def sampleId3 : QueuedOperationId := ⟨3, by decide⟩

/-- Two deletions enqueued together, the first acknowledged, a third enqueued. -/
def sampleHistory : List Operand :=
  [.enqueue [sampleDeletion sampleId1 7, sampleDeletion sampleId2 9],
    .acknowledge [sampleId1], .enqueue [sampleDeletion sampleId3 7]]

theorem sampleHistory_valid : ValidHistory .text sampleHistory := by
  refine ⟨?_, by decide, by decide, by decide, ?_⟩
  · intro operand hmem
    simp only [sampleHistory, mem_cons, not_mem_nil, or_false] at hmem
    rcases hmem with rfl | rfl | rfl <;> exact ⟨_, rfl⟩
  · intro older operand newer hsplit id hid
    -- only the second operand removes anything
    rcases older with _ | ⟨a, _ | ⟨b, _ | ⟨c, older⟩⟩⟩
    · cases hsplit
      cases hid
    · cases hsplit
      rw [mem_singleton.mp hid]
      decide
    · cases hsplit
      cases hid
    · simp [sampleHistory] at hsplit

theorem sampleHistory_addressable : Addressable sampleHistory := by
  refine ⟨by decide, ?_⟩
  intro older hold
  exact lt_of_le_of_lt (outstanding_prefix_sublist hold).length_le (by decide)

/-- The first two operands merged with each other, then both with the third. -/
theorem resolved_queue_of_sampleHistory :
    ∃ operands result,
      evalList (operandBytes .text) mergeCall
        [.batch true (.batch false (.leaf (.enqueue [sampleDeletion sampleId1 7,
          sampleDeletion sampleId2 9])) [.leaf (.acknowledge [sampleId1])])
          [.leaf (.enqueue [sampleDeletion sampleId3 7])]] = .ok operands ∧
      mergeWithBase none operands = .ok result ∧
      result.Holds .text [sampleDeletion sampleId2 9, sampleDeletion sampleId3 7] :=
  resolved_queue_holds_outstanding .text sampleHistory sampleHistory_valid
    sampleHistory_addressable [] .empty .absent _ rfl

end HelixDb.Queue
