/-
  HelixDb.OperationQueue.Content

  **WHAT A RUN OF OPERANDS STANDS FOR.**

  A queue key receives enqueue and acknowledge operands, oldest first.  The
  `content` of a contiguous run of them is the removals whose insert lies below
  the run, and the operations the run inserts and does not remove, in the order
  of their inserts.  A run is `Coherent` when no ID is inserted twice or removed
  twice, and no ID is removed before it is inserted: every part of a valid
  history is.

    • `content_append` — **the content of a joined run** is the content of its
      older part, followed by the value of the newer part.

  The per-ID cancellation of the merge algebra is exact on coherent runs, and
  only there; `Coherent` is what each use of cancellation below refers to.
-/
import HelixDb.OperationQueue.Algebra

namespace HelixDb.Queue

open HelixDb.Lib HelixDb.Encoding List

/-! ## §1. Operands and runs. -/

/-- One operand of a queue key, as its producer or its worker builds it. -/
inductive Operand where
  | enqueue (operations : List QueuedOperation)
  | acknowledge (ids : List QueuedOperationId)

namespace Operand

/-- The operations an operand adds. -/
def inserts : Operand → List QueuedOperation
  | enqueue operations => operations
  | acknowledge _ => []

/-- The IDs an operand takes out. -/
def removes : Operand → List QueuedOperationId
  | enqueue _ => []
  | acknowledge ids => ids

/-- The operand as the constructors of `QueueOperand` build it. -/
def build (family : QueueFamily) : Operand → Except EncodingError QueueOperand
  | enqueue operations => QueueOperand.enqueue operations
  | acknowledge ids => QueueOperand.acknowledge family ids

end Operand

/-- The operations a run inserts, in commit order. -/
def inserted (run : List Operand) : List QueuedOperation := run.flatMap Operand.inserts

/-- The IDs a run adds. -/
def insertedIds (run : List Operand) : List QueuedOperationId :=
  (inserted run).map QueuedOperation.id

/-- The IDs a run removes. -/
def removed (run : List Operand) : List QueuedOperationId := run.flatMap Operand.removes

/-- **The operations inserted and never removed**, in commit order. -/
def outstanding (run : List Operand) : List QueuedOperation :=
  (inserted run).filter fun operation => operation.id ∉ removed run

/-- The insert record an operation is enqueued as. -/
def QueuedOperation.toInsert (operation : QueuedOperation) : RawInsert :=
  ⟨.ifAbsent, operation.id, putBody operation⟩

/-- The content of a run. -/
def content (run : List Operand) : Pending :=
  ⟨((removed run).filter fun id => id ∉ insertedIds run).toFinset,
    (outstanding run).map QueuedOperation.toInsert⟩

/-- No ID is inserted twice, removed twice, or removed before its insert. -/
structure Coherent (run : List Operand) : Prop where
  inserted_once : (insertedIds run).Nodup
  removed_once : (removed run).Nodup
  inserted_first : ∀ older newer, run = older ++ newer →
    ∀ id ∈ removed older, id ∉ insertedIds newer

@[simp] theorem inserted_append (xs ys : List Operand) :
    inserted (xs ++ ys) = inserted xs ++ inserted ys := flatMap_append

@[simp] theorem insertedIds_append (xs ys : List Operand) :
    insertedIds (xs ++ ys) = insertedIds xs ++ insertedIds ys := by
  unfold insertedIds
  rw [inserted_append, map_append]

@[simp] theorem removed_append (xs ys : List Operand) :
    removed (xs ++ ys) = removed xs ++ removed ys := flatMap_append

/-- A part of a coherent run is coherent. -/
theorem Coherent.of_part {run part : List Operand} (h : Coherent run) (hpart : part <:+: run) :
    Coherent part := by
  obtain ⟨before, after, rfl⟩ := hpart
  have hins := h.inserted_once
  have hrem := h.removed_once
  rw [insertedIds_append, insertedIds_append] at hins
  rw [removed_append, removed_append] at hrem
  refine ⟨hins.of_append_left.of_append_right, hrem.of_append_left.of_append_right, ?_⟩
  intro older newer hsplit id hid hmem
  subst hsplit
  have hall := h.inserted_first (before ++ older) (newer ++ after) (by simp)
  refine hall id ?_ ?_
  · rw [removed_append]
    exact mem_append_right _ hid
  · rw [insertedIds_append]
    exact mem_append_left _ hmem

/-! ## §2. The merge algebra on cancelling records. -/

namespace Pending

/-- Every live insert is conditional: nothing in the content is a set. -/
def Conditional (p : Pending) : Prop := ∀ i ∈ p.live, i.mode = .ifAbsent

/-- Removals cancel the live inserts they name; the others are kept. -/
theorem foldl_remove (ids : List QueuedOperationId) :
    ∀ p : Pending, p.Conditional → ids.Nodup →
      ids.foldl remove p = ⟨p.removes ∪ (ids.filter fun id => id ∉ p.ids).toFinset,
        p.live.filter fun i => i.id ∉ ids⟩ := by
  induction ids with
  | nil =>
    simp
  | cons id ids ih =>
    intro p hcond hnodup
    obtain ⟨hnot, hnodup⟩ := nodup_cons.mp hnodup
    rw [foldl_cons]
    by_cases hlive : id ∈ p.ids
    · -- the insert and its removal cancel
      have hremove : p.remove id = ⟨p.removes, p.live.filter fun i => i.id ≠ id⟩ := by
        unfold remove
        rw [if_pos hlive, if_neg]
        intro ⟨i, hi, _, hset⟩
        simp [hcond i hi] at hset
      have hids : ∀ x ∈ ids, (x ∉ (p.remove id).ids ↔ x ∉ p.ids) := by
        intro x hx
        have hne : x ≠ id := fun h => hnot (h ▸ hx)
        rw [hremove]
        simp only [Pending.ids, mem_map, mem_filter, decide_eq_true_eq]
        constructor
        · intro h ⟨i, hi, hid⟩
          exact h ⟨i, ⟨hi, hid ▸ hne⟩, hid⟩
        · intro h ⟨i, ⟨hi, _⟩, hid⟩
          exact h ⟨i, hi, hid⟩
      have hcond' : (p.remove id).Conditional := by
        rw [hremove]
        intro i hi
        exact hcond i (mem_of_mem_filter hi)
      have hfilter : (ids.filter fun x => x ∉ (p.remove id).ids)
          = ids.filter fun x => x ∉ p.ids :=
        filter_congr fun x hx => decide_eq_decide.mpr (hids x hx)
      rw [ih _ hcond' hnodup, hfilter, filter_cons_of_neg (by simpa using hlive), hremove]
      simp [Bool.and_comm]
    · have hremove : p.remove id = ⟨Insert.insert id p.removes, p.live⟩ := by
        unfold remove
        rw [if_neg hlive]
      have hcond' : (p.remove id).Conditional := by
        rwa [hremove]
      rw [ih _ hcond' hnodup, hremove, filter_cons_of_pos (by simpa using hlive),
        toFinset_cons]
      congr 1
      · rw [Finset.insert_union, Finset.union_insert]
        rfl
      · refine filter_congr fun i hi => ?_
        have hne : i.id ≠ id := fun h => hlive (mem_map.mpr ⟨i, hi, h⟩)
        simp [hne]

/-- Inserts of unseen IDs are appended. -/
theorem foldl_insert (inserts : List RawInsert) :
    ∀ p : Pending, (inserts.map RawInsert.id).Nodup →
      (∀ i ∈ inserts, i.id ∉ p.removes ∧ i.id ∉ p.ids) →
      inserts.foldl insert p = ⟨p.removes, p.live ++ inserts⟩ := by
  induction inserts with
  | nil =>
    intro p _ _
    rw [append_nil]
    rfl
  | cons i inserts ih =>
    intro p hnodup hfresh
    obtain ⟨hremoved, hlive⟩ := hfresh i mem_cons_self
    obtain ⟨hnot, hnodup⟩ := nodup_cons.mp hnodup
    have hinsert : p.insert i = ⟨p.removes, p.live ++ [i]⟩ := by
      unfold insert
      rw [if_neg hremoved, if_pos hlive]
    rw [foldl_cons, hinsert, ih _ hnodup, append_assoc, singleton_append]
    intro j hj
    obtain ⟨hjr, hjl⟩ := hfresh j (mem_cons_of_mem _ hj)
    refine ⟨hjr, ?_⟩
    show j.id ∉ (p.live ++ [i]).map RawInsert.id
    rw [map_append, mem_append, not_or]
    refine ⟨hjl, ?_⟩
    intro hji
    exact hnot (mem_singleton.mp hji ▸ mem_map_of_mem hj)

/-- **A later value on a conditional content**: its removals cancel or are
kept, its inserts, all of unseen IDs, are appended. -/
theorem follow_eq {p : Pending} {value : RawValue} (hcond : p.Conditional)
    (hremoves : value.removes.Nodup) (hinserts : (value.inserts.map RawInsert.id).Nodup)
    (hfresh : ∀ i ∈ value.inserts,
      i.id ∉ p.removes ∧ i.id ∉ value.removes ∧ i.id ∉ p.ids) :
    p.follow value = ⟨p.removes ∪ (value.removes.filter fun id => id ∉ p.ids).toFinset,
      (p.live.filter fun i => i.id ∉ value.removes) ++ value.inserts⟩ := by
  unfold follow
  rw [foldl_remove value.removes p hcond hremoves, foldl_insert value.inserts _ hinserts]
  intro i hi
  obtain ⟨hr, hv, hl⟩ := hfresh i hi
  constructor
  · rw [Finset.mem_union, not_or, mem_toFinset]
    exact ⟨hr, fun h => hv (mem_of_mem_filter h)⟩
  · intro hmem
    obtain ⟨j, hj, hid⟩ := mem_map.mp hmem
    exact hl (mem_map.mpr ⟨j, mem_of_mem_filter hj, hid⟩)

end Pending

/-! ## §3. The content of a run. -/

theorem content_conditional (run : List Operand) : (content run).Conditional := by
  intro i hi
  obtain ⟨operation, _, rfl⟩ := mem_map.mp hi
  rfl

theorem content_ids (run : List Operand) :
    (content run).ids = (outstanding run).map QueuedOperation.id := map_map

theorem mem_content_removes (run : List Operand) (id : QueuedOperationId) :
    id ∈ (content run).removes ↔ id ∈ removed run ∧ id ∉ insertedIds run := by
  show id ∈ (List.filter _ _).toFinset ↔ _
  rw [mem_toFinset, mem_filter, decide_eq_true_eq]

/-- The IDs still live after a run were inserted by it and not removed. -/
theorem mem_content_ids (run : List Operand) (id : QueuedOperationId) :
    id ∈ (content run).ids ↔ id ∈ insertedIds run ∧ id ∉ removed run := by
  rw [content_ids]
  unfold outstanding insertedIds
  simp only [mem_map, mem_filter, decide_eq_true_eq]
  constructor
  · intro ⟨operation, ⟨hmem, hnot⟩, hid⟩
    exact ⟨⟨operation, hmem, hid⟩, hid ▸ hnot⟩
  · intro ⟨⟨operation, hmem, hid⟩, hnot⟩
    exact ⟨operation, ⟨hmem, hid ▸ hnot⟩, hid⟩

variable {xs ys run : List Operand}

theorem content_ids_nodup (h : (insertedIds run).Nodup) :
    (content run).ids.Nodup := by
  rw [content_ids]
  exact h.sublist (filter_sublist.map _)

/-- The queue value of a run's content. -/
theorem mem_toRaw_removes (p : Pending) (family : QueueFamily) (id : QueuedOperationId) :
    id ∈ (p.toRaw family).removes ↔ id ∈ p.removes := Finset.mem_sort _

/-- What two neighbouring parts of a coherent run may not share. -/
theorem Coherent.parts (h : Coherent (xs ++ ys)) (id : QueuedOperationId) :
    (id ∈ insertedIds xs → id ∉ insertedIds ys) ∧ (id ∈ removed xs → id ∉ removed ys) ∧
      (id ∈ removed xs → id ∉ insertedIds ys) := by
  have hins := h.inserted_once
  have hrem := h.removed_once
  rw [insertedIds_append, nodup_append] at hins
  rw [removed_append, nodup_append] at hrem
  refine ⟨?_, ?_, ?_⟩
  · intro hx hy
    exact hins.2.2 id hx id hy rfl
  · intro hx hy
    exact hrem.2.2 id hx id hy rfl
  · exact h.inserted_first xs ys rfl id

/-- An operation inserted by the older part survives the whole run when neither
part removes it. -/
theorem outstanding_append (h : Coherent (xs ++ ys)) :
    outstanding (xs ++ ys)
      = ((outstanding xs).filter fun o => o.id ∉ (content ys).removes) ++ outstanding ys := by
  unfold outstanding
  rw [inserted_append, filter_append, filter_filter]
  congr 1
  · refine filter_congr fun o ho => ?_
    have hparts := h.parts o.id
    have hid : o.id ∈ insertedIds xs := mem_map_of_mem ho
    rw [← Bool.decide_and, decide_eq_decide, removed_append, mem_append,
      mem_content_removes]
    tauto
  · refine filter_congr fun o ho => ?_
    have hparts := h.parts o.id
    have hid : o.id ∈ insertedIds ys := mem_map_of_mem ho
    rw [decide_eq_decide, removed_append, mem_append]
    tauto

/-- **The content of a joined run** is the content of its older part followed
by the value of its newer part. -/
theorem content_append (family : QueueFamily) (h : Coherent (xs ++ ys)) :
    (content xs).follow ((content ys).toRaw family) = content (xs ++ ys) := by
  have hys : Coherent ys := h.of_part (suffix_append xs ys).isInfix
  rw [Pending.follow_eq (content_conditional xs)]
  · -- both components, one ID at a time
    have hremoves : (content xs).removes
        ∪ (((content ys).toRaw family).removes.filter fun id => id ∉ (content xs).ids).toFinset
          = (content (xs ++ ys)).removes := by
      ext id
      have hparts := h.parts id
      rw [Finset.mem_union, mem_toFinset, mem_filter, decide_eq_true_eq,
        mem_toRaw_removes, mem_content_removes, mem_content_removes, mem_content_removes,
        mem_content_ids, insertedIds_append, removed_append, mem_append, mem_append]
      tauto
    have hlive : ((content xs).live.filter fun i => i.id ∉ ((content ys).toRaw family).removes)
        ++ (content ys).live = (content (xs ++ ys)).live := by
      show _ = (outstanding (xs ++ ys)).map QueuedOperation.toInsert
      rw [outstanding_append h, map_append]
      congr 1
      show List.filter _ ((outstanding xs).map QueuedOperation.toInsert) = _
      rw [filter_map]
      congr 1
      refine filter_congr fun o _ => ?_
      exact decide_eq_decide.mpr (not_congr (mem_toRaw_removes _ _ _))
    rw [hremoves]
    exact congrArg _ hlive
  · exact Finset.sort_nodup (content ys).removes (· ≤ ·)
  · exact content_ids_nodup hys.inserted_once
  · intro i hi
    have hid : i.id ∈ (content ys).ids := mem_map_of_mem hi
    have hparts := h.parts i.id
    rw [mem_content_ids] at hid
    rw [mem_toRaw_removes, mem_content_removes, mem_content_removes, mem_content_ids]
    tauto

end HelixDb.Queue
