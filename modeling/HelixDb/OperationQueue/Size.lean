/-
  HelixDb.OperationQueue.Size

  **NO QUEUE VALUE OUTGROWS THE STORE.**

  The store keeps a value's length in a `u32`.  Admission keeps the operations
  outstanding at any point within `MAX_RETAINED_BYTES`.  A partial merge of a
  run holds one 16-byte removal per operation that was outstanding before the
  run, and the records of operations outstanding after it, so with the framing
  it has at most

      MAX_VALUE_FRAMING_LEN + 16 · (R / 21) + R      (R = MAX_RETAINED_BYTES)

  bytes, which fits.

    • `encode_content_length_le` — that bound, for every run,
    • `merged_values_fit_u32` — **every partial and every resolved value**.
-/
import HelixDb.OperationQueue.History

namespace HelixDb.Queue

open HelixDb.Lib HelixDb.Encoding List

/-- The largest value length the store can represent. -/
def U32_MAX : Nat := 2 ^ 32 - 1

/-- Bytes some operations retain in a resolved queue. -/
def retainedSum (operations : List QueuedOperation) : Nat :=
  (operations.map QueuedOperation.retainedBytes).sum

/-- Admission's guarantee: at every point the outstanding operations retain at
most `MAX_RETAINED_BYTES`. -/
def WithinRetained (history : List Operand) : Prop :=
  ∀ older, older <+: history → retainedSum (outstanding older) ≤ MAX_RETAINED_BYTES

/-! ## §1. The length of a value. -/

theorem flatMap_putRawInsert_length (operations : List QueuedOperation) :
    ((operations.map QueuedOperation.toInsert).flatMap putRawInsert).length
      = retainedSum operations := by
  induction operations with
  | nil => rfl
  | cons o os ih =>
    have ho : (putRawInsert o.toInsert).length = o.retainedBytes := by
      rw [putRawInsert_length]
      show retainedLen (putBody o).length = _
      rw [putBody_length]
      rfl
    unfold retainedSum at ih ⊢
    rw [map_cons, flatMap_cons, length_append, ih, ho, map_cons,
      sum_cons]

/-- Framing, one ID a removal, one record a live operation. -/
theorem encode_content_length (family : QueueFamily) (run : List Operand) :
    ((content run).toRaw family).encode.length
      = HEADER_LEN + varintLen (content run).removes.card
        + (content run).removes.card * OPERATION_ID_LEN
        + varintLen (outstanding run).length + retainedSum (outstanding run) := by
  show (putHeader family ++ (putVarint ((content run).removes.sort (· ≤ ·)).length
    ++ ((content run).removes.sort (· ≤ ·)).flatMap QueuedOperationId.toBeBytes
    ++ (putVarint ((outstanding run).map QueuedOperation.toInsert).length
      ++ ((outstanding run).map QueuedOperation.toInsert).flatMap putRawInsert))).length = _
  rw [length_append, length_append, length_append, length_append,
    flatMap_toBeBytes_length, flatMap_putRawInsert_length, putVarint_length, putVarint_length,
    Finset.length_sort, length_map]
  show 3 + _ = 3 + _ + _ + _ + _
  omega

/-- Each operation retains at least the smallest record. -/
theorem length_mul_le_retainedSum (operations : List QueuedOperation) :
    operations.length * MIN_RETAINED_RECORD_LEN ≤ retainedSum operations := by
  induction operations with
  | nil => simp
  | cons o os ih =>
    have ho := min_le_retainedBytes o
    unfold retainedSum at ih ⊢
    rw [map_cons, sum_cons, length_cons, Nat.add_mul]
    omega

theorem retainedSum_le_of_sublist {xs ys : List QueuedOperation} (h : xs.Sublist ys) :
    retainedSum xs ≤ retainedSum ys :=
  (h.map QueuedOperation.retainedBytes).sum_le_sum fun _ _ => Nat.zero_le _

/-! ## §2. The bound on every run. -/

section Bound

variable {family : QueueFamily} {history : List Operand}

theorem WithinRetained.length_le (hret : WithinRetained history) {older : List Operand}
    (hold : older <+: history) :
    (outstanding older).length ≤ MAX_RETAINED_BYTES / MIN_RETAINED_RECORD_LEN := by
  rw [Nat.le_div_iff_mul_le (by decide)]
  exact le_trans (length_mul_le_retainedSum _) (hret older hold)

/-- An operation is outstanding right after the operand that inserts it. -/
theorem ValidHistory.outstanding_at_insert (h : ValidHistory family history)
    {operation : QueuedOperation} (hmem : operation ∈ inserted history) :
    ∃ older, older <+: history ∧ operation ∈ outstanding older := by
  obtain ⟨operand, hoperand, hins⟩ := mem_flatMap.mp hmem
  obtain ⟨before, after, hsplit⟩ := append_of_mem hoperand
  have hold : before ++ [operand] <+: history := ⟨after, by rw [hsplit]; simp⟩
  have hcoherent := h.coherent.of_part hold.isInfix
  have hhere : operation ∈ outstanding [operand] := by
    cases operand with
    | enqueue operations =>
      simpa [outstanding, inserted, removed, Operand.removes] using hins
    | acknowledge ids => cases hins
  refine ⟨_, hold, ?_⟩
  rw [outstanding_append hcoherent]
  exact mem_append_right _ hhere

/-- What admission guarantees keeps every length a `usize`. -/
theorem WithinRetained.addressable (hret : WithinRetained history)
    (h : ValidHistory family history) : Addressable history := by
  constructor
  · intro o ho
    obtain ⟨older, hold, hmem⟩ := h.outstanding_at_insert ho
    have hsum := hret older hold
    have hone : o.retainedBytes ≤ retainedSum (outstanding older) :=
      le_sum_of_mem (mem_map_of_mem hmem)
    have hbody : (putBody o).length ≤ o.retainedBytes := by
      rw [putBody_length]
      exact Nat.le_add_left _ _
    have hmax : MAX_RETAINED_BYTES < 2 ^ 64 := by decide
    omega
  · intro older hold
    exact lt_of_le_of_lt (hret.length_le hold) (by decide)

/-- **The value of every run of the history fits.** -/
theorem encode_content_length_le (h : ValidHistory family history)
    (hret : WithinRetained history) {run : List Operand} (hrun : run <:+: history) :
    ((content run).toRaw family).encode.length ≤ U32_MAX := by
  obtain ⟨older, newer, hsplit⟩ := hrun
  have hold : older <+: history := ⟨run ++ newer, by rw [← hsplit, append_assoc]⟩
  have hnew : older ++ run <+: history := ⟨newer, hsplit⟩
  have hremoves : (content run).removes.card ≤ MAX_RETAINED_BYTES / MIN_RETAINED_RECORD_LEN :=
    le_trans (h.removes_card_le hsplit.symm) (hret.length_le hold)
  have hlive : retainedSum (outstanding run) ≤ MAX_RETAINED_BYTES :=
    le_trans (retainedSum_le_of_sublist (h.outstanding_sublist hsplit.symm)) (hret _ hnew)
  have hvarint := varintLen_le (content run).removes.card
  have hvarint' := varintLen_le (outstanding run).length
  have hfits : HEADER_LEN + 2 * MAX_VARINT_LEN
      + MAX_RETAINED_BYTES / MIN_RETAINED_RECORD_LEN * OPERATION_ID_LEN + MAX_RETAINED_BYTES
        ≤ U32_MAX := by decide
  have hids := Nat.mul_le_mul_right OPERATION_ID_LEN hremoves
  rw [encode_content_length]
  omega

end Bound

/-- **Every partial merge and every resolved value fits the store's `u32`
length.** -/
theorem merged_values_fit_u32 (family : QueueFamily) (history : List Operand)
    (h : ValidHistory family history) (hret : WithinRetained history) :
    (∀ group : Grouping Bool Operand, group.leaves <:+: history →
      ∃ bytes, group.eval (operandBytes family) mergeCall = .ok bytes ∧
        bytes.length ≤ U32_MAX) ∧
    (∀ older result bytes, older <+: history → Resolves family older result →
      result = .value bytes → bytes.length ≤ U32_MAX) := by
  have haddr := hret.addressable h
  constructor
  · intro group hleaves
    obtain ⟨bytes, heval, hpart, hbytes⟩ := (Grouping.eval_rel (fun _ _ hxy hy => hxy.trans hy)
      h.operandBytes_holdsRun (mergeCall_combines h haddr) group hleaves).exists_ok
    refine ⟨bytes, heval, ?_⟩
    rw [hbytes]
    exact encode_content_length_le h hret hpart
  · intro older result bytes hold hresolves hvalue
    rw [h.resolves_eq haddr hresolves hold] at hvalue
    unfold queueOf at hvalue
    split_ifs at hvalue
    cases hvalue
    exact encode_content_length_le h hret hold.isInfix

theorem sampleHistory_withinRetained : WithinRetained sampleHistory := by
  intro older hold
  exact le_trans (retainedSum_le_of_sublist (outstanding_prefix_sublist hold)) (by decide)

/-- The acknowledgement merged with the enqueue after it. -/
theorem sampleHistory_values_fit_u32 :
    ∃ bytes, Grouping.eval (operandBytes .text) mergeCall
        (.batch false (.leaf (.acknowledge [sampleId1]))
          [.leaf (.enqueue [sampleDeletion sampleId3 7])]) = .ok bytes ∧
      bytes.length ≤ U32_MAX :=
  (merged_values_fit_u32 .text sampleHistory sampleHistory_valid sampleHistory_withinRetained).1 _
    ⟨[.enqueue [sampleDeletion sampleId1 7, sampleDeletion sampleId2 9]], [], rfl⟩

end HelixDb.Queue
