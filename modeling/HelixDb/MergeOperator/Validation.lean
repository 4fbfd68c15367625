/-
  HelixDb.MergeOperator.Validation

  **VALIDATING A MERGE WITHOUT RESOLVING IT.**

  `validate_merge_with_base` decodes what `merge_batch_with_base` decodes, in the
  same order, and stops there; the queue operator resolves and drops the result.
  What resolving does beyond decoding is to write the merged row, and of the rows
  that are validated this way only an adjacency row has length prefixes that can
  fail to hold its bitmaps.

    • `foldlM_decode_discard` — decoding is what a fold of changes fails by,
    • `validate_accepts_iff` — acceptance is resolution, up to that prefix.
-/
import HelixDb.Membership.DeltaCodec
import HelixDb.OperationQueue.Algebra
import HelixDb.Lib.FoldM

namespace HelixDb.MergeOperator

open HelixDb.Lib HelixDb.Encoding HelixDb.Membership Portable EdgeMergeOperator
open AdjacencyMembershipDelta (decodeIfDelta applyTo fromEdges)

variable (codec : RoaringCodec)

/-! ## §1. Validation. -/

/-- `BitmapMergeOperator::validate_merge_with_base`. -/
def BitmapMergeOperator.validateMergeWithBase (base : BitmapBase) (existingValue : Option Bytes)
    (operands : List Bytes) : Except MergeFault Unit := do
  let _ ← existingValue.elim (.ok ∅) (base.decode codec)
  operands.forM fun operand => do
    let _ ← BitmapMergeOperator.decodeOperand codec operand
    return ()

/-- `EdgeMergeOperator::validate_merge_with_base`. -/
def EdgeMergeOperator.validateMergeWithBase (existingValue : Option Bytes)
    (operands : List Bytes) : Except MergeFault Unit := do
  let _ ← existingValue.elim (.ok Edges.new) fun existing =>
    mergeDecode (decodeEdges codec existing)
  operands.forM fun operand => do
    let _ ← EdgeMergeOperator.decodeOperand codec operand
    return ()

/-- `OperationQueueMergeOperator::merge_batch_with_base`; its cost counters are not
modelled. -/
def OperationQueueMergeOperator.mergeBatchWithBase (existingValue : Option Bytes)
    (operands : List Bytes) : Except MergeFault Merged := do
  match ← mergeDecode (Queue.mergeWithBase existingValue operands) with
  | .value value => return .value value
  | .empty => return .tombstone

/-- `OperationQueueMergeOperator::validate_merge_with_base`. -/
def OperationQueueMergeOperator.validateMergeWithBase (existingValue : Option Bytes)
    (operands : List Bytes) : Except MergeFault Unit := do
  let _ ← mergeDecode (Queue.mergeWithBase existingValue operands)
  return ()

/-- The keys whose operator resolves a row against its base; range presence rows
share the strict bitmap operator. -/
inductive MergeKeyType where
  | edge
  | bitmap (base : BitmapBase)
  | presence
  | operationQueue
deriving DecidableEq

namespace HelixMergeOperator

/-- The resolution of a key of the type. -/
def mergeBatchWithBase (keyType : MergeKeyType) : Option Bytes → List Bytes →
    Except MergeFault Merged :=
  match keyType with
  | .edge => EdgeMergeOperator.mergeBatchWithBase codec
  | .bitmap base => BitmapMergeOperator.mergeBatchWithBase codec base
  | .presence => BitmapMergeOperator.mergeBatchWithBase codec .strict
  | .operationQueue => OperationQueueMergeOperator.mergeBatchWithBase

/-- The validation of a key of the type. -/
def validateMergeWithBase (keyType : MergeKeyType) : Option Bytes → List Bytes →
    Except MergeFault Unit :=
  match keyType with
  | .edge => EdgeMergeOperator.validateMergeWithBase codec
  | .bitmap base => BitmapMergeOperator.validateMergeWithBase codec base
  | .presence => BitmapMergeOperator.validateMergeWithBase codec .strict
  | .operationQueue => OperationQueueMergeOperator.validateMergeWithBase

end HelixMergeOperator

/-! ## §2. Decoding is what resolving fails by. -/

section Discard

variable {ε S D : Type}

/-- A fold that decodes and applies fails where decoding alone fails. -/
theorem foldlM_decode_discard (decode : Bytes → Except ε D) (apply : S → D → S)
    (operands : List Bytes) : ∀ members : S,
    (operands.foldlM (fun members operand => do
        let delta ← decode operand
        return apply members delta) members >>= fun _ => pure ()) =
      operands.forM fun operand => do
        let _ ← decode operand
        return () := by
  induction operands with
  | nil => exact fun _ => rfl
  | cons operand operands ih =>
    intro members
    rw [List.foldlM_cons]
    show _ = ((do let _ ← decode operand; return () : Except ε Unit) >>= fun _ =>
      operands.forM fun operand => do
        let _ ← decode operand
        return ())
    cases decode operand with
    | error e => rfl
    | ok delta => exact ih (apply members delta)

/-- The fold fails with the failure of some operand. -/
theorem foldlM_decode_error (decode : Bytes → Except ε D) (apply : S → D → S) {e : ε}
    (operands : List Bytes) : ∀ members : S,
    operands.foldlM (fun members operand => do
        let delta ← decode operand
        return apply members delta) members = .error e →
      ∃ operand, decode operand = .error e := by
  induction operands with
  | nil => exact fun _ h => nomatch h
  | cons operand operands ih =>
    intro members h
    rw [List.foldlM_cons] at h
    cases hoperand : decode operand with
    | error e' =>
      rw [hoperand] at h
      cases h
      exact ⟨operand, hoperand⟩
    | ok delta =>
      rw [hoperand] at h
      exact ih (apply members delta) h

/-- A validation that succeeds is a run up to the point where the row is written. -/
theorem discard_eq_ok {x : Except ε S} {y : Except ε Unit} (h : (x >>= fun _ => pure ()) = y) :
    y = .ok () ↔ ∃ members, x = .ok members := by
  rw [← h]
  cases x with
  | error e => exact ⟨(fun h => nomatch h), fun ⟨_, h⟩ => nomatch h⟩
  | ok members => exact ⟨fun _ => ⟨members, rfl⟩, fun _ => rfl⟩

end Discard

theorem BitmapMergeOperator.validate_iff (base : BitmapBase) (existingValue : Option Bytes)
    (operands : List Bytes) :
    BitmapMergeOperator.validateMergeWithBase codec base existingValue operands = .ok () ↔
      ∃ merged, BitmapMergeOperator.mergeBatchWithBase codec base existingValue operands =
        .ok merged := by
  unfold BitmapMergeOperator.validateMergeWithBase BitmapMergeOperator.mergeBatchWithBase
  cases existingValue.elim (.ok ∅) (base.decode codec) with
  | error e => exact ⟨(fun h => nomatch h), fun ⟨_, h⟩ => nomatch h⟩
  | ok stored =>
    have hdiscard := foldlM_decode_discard (BitmapMergeOperator.decodeOperand codec)
      (fun bitmap delta => BitmapMembershipDelta.applyTo delta bitmap) operands stored
    refine (discard_eq_ok hdiscard).trans ?_
    constructor
    · rintro ⟨bitmap, hfold⟩
      by_cases hempty : bitmap = ∅
      · refine ⟨.tombstone, except_bind_eq_ok.mpr ⟨stored, rfl, ?_⟩⟩
        exact except_bind_eq_ok.mpr ⟨bitmap, hfold, if_pos hempty⟩
      · refine ⟨.value (codec.serialize bitmap), except_bind_eq_ok.mpr ⟨stored, rfl, ?_⟩⟩
        exact except_bind_eq_ok.mpr ⟨bitmap, hfold, if_neg hempty⟩
    · rintro ⟨merged, hmerge⟩
      obtain ⟨_, hstored, hmerge⟩ := except_bind_eq_ok.mp hmerge
      cases hstored
      obtain ⟨bitmap, hfold, -⟩ := except_bind_eq_ok.mp hmerge
      exact ⟨bitmap, hfold⟩

/-- The failure of a row whose bitmap is too long for its prefix. -/
def exceedsPrefix (direction : String) : MergeFault :=
  .panicked s!"{direction} edge bitmap exceeds u32 length prefix"

theorem encodeEdges_cases (edges : Edges) :
    (∃ bytes, encodeEdges codec edges = .ok bytes) ∨
      encodeEdges codec edges = .error (exceedsPrefix "outgoing") ∨
        encodeEdges codec edges = .error (exceedsPrefix "incoming") := by
  unfold encodeEdges expectU32
  by_cases hout : codec.serializedSize edges.nxtsOut < 2 ^ 32
  · rw [if_pos hout]
    split_ifs with hin
    · exact .inl ⟨_, rfl⟩
    · exact .inr (.inr rfl)
  · rw [if_neg hout]
    exact .inr (.inl rfl)

/-- Decoding an operand never panics. -/
theorem EdgeMergeOperator.decodeOperand_ne_panicked (operand : Bytes) (message : String) :
    decodeOperand codec operand ≠ .error (.panicked message) := by
  intro h
  unfold decodeOperand at h
  cases hdelta : decodeIfDelta codec operand with
  | error e =>
    rw [hdelta] at h
    cases h
  | ok found =>
    rw [hdelta] at h
    cases found with
    | some delta => cases h
    | none =>
      cases hraw : decodeEdgeDelta operand with
      | some change =>
        simp only [mergeDecode, hraw] at h
        cases h
      | none =>
        simp only [mergeDecode, hraw] at h
        split_ifs at h with hmalformed
        · cases h
        · cases hedges : decodeEdges codec operand with
          | error e | ok edges =>
            rw [hedges] at h
            cases h

/-- An adjacency merge validates exactly when it resolves or when the merged row is
too long for a length prefix. -/
theorem EdgeMergeOperator.validate_iff (existingValue : Option Bytes) (operands : List Bytes) :
    validateMergeWithBase codec existingValue operands = .ok () ↔
      (∃ merged, mergeBatchWithBase codec existingValue operands = .ok merged) ∨
      ∃ direction, mergeBatchWithBase codec existingValue operands =
        .error (exceedsPrefix direction) := by
  have hstored : ∀ message, existingValue.elim (.ok Edges.new)
      (fun existing => mergeDecode (decodeEdges codec existing)) ≠ .error (.panicked message) := by
    intro message h
    cases existingValue with
    | none => exact nomatch h
    | some existing =>
      have h' : mergeDecode (decodeEdges codec existing) = .error (.panicked message) := h
      cases hedges : decodeEdges codec existing with
      | error e | ok edges =>
        rw [hedges] at h'
        exact nomatch h'
  unfold validateMergeWithBase mergeBatchWithBase
  cases hread : existingValue.elim (.ok Edges.new) fun existing =>
      mergeDecode (decodeEdges codec existing) with
  | error e =>
    constructor
    · exact fun h => nomatch h
    · rintro (⟨merged, h⟩ | ⟨direction, h⟩)
      · exact nomatch h
      · rw [Except.error.inj h] at hread
        exact absurd hread (hstored _)
  | ok stored =>
    have hdiscard := foldlM_decode_discard (decodeOperand codec)
      (fun merged delta => applyTo delta merged) operands stored
    refine (discard_eq_ok hdiscard).trans ?_
    show _ ↔ (∃ merged, (operands.foldlM _ stored >>= _) = Except.ok merged) ∨
      ∃ direction, (operands.foldlM _ stored >>= _) = Except.error (exceedsPrefix direction)
    cases hfold : operands.foldlM (fun merged operand => do
        let delta ← decodeOperand codec operand
        return applyTo delta merged) stored with
    | error e =>
      obtain ⟨operand, hoperand⟩ := foldlM_decode_error _ _ operands stored hfold
      constructor
      · exact fun ⟨_, h⟩ => nomatch h
      · rintro (⟨merged, h⟩ | ⟨direction, h⟩)
        · exact nomatch h
        · rw [Except.error.inj h] at hoperand
          exact absurd hoperand (decodeOperand_ne_panicked codec operand _)
    | ok merged =>
      refine ⟨fun _ => ?_, fun _ => ⟨merged, rfl⟩⟩
      show (∃ result, (if merged.isEmpty = true then _ else _) = Except.ok result) ∨
        ∃ direction, (if merged.isEmpty = true then _ else _) = Except.error _
      split_ifs with hempty
      · exact .inl ⟨_, rfl⟩
      · rcases encodeEdges_cases codec merged with ⟨bytes, hbytes⟩ | hbytes | hbytes
        · rw [hbytes]
          exact .inl ⟨_, rfl⟩
        · rw [hbytes]
          exact .inr ⟨_, rfl⟩
        · rw [hbytes]
          exact .inr ⟨_, rfl⟩

theorem OperationQueueMergeOperator.validate_iff (existingValue : Option Bytes)
    (operands : List Bytes) :
    OperationQueueMergeOperator.validateMergeWithBase existingValue operands = .ok () ↔
      ∃ merged, OperationQueueMergeOperator.mergeBatchWithBase existingValue operands =
        .ok merged := by
  unfold OperationQueueMergeOperator.validateMergeWithBase
    OperationQueueMergeOperator.mergeBatchWithBase
  cases Queue.mergeWithBase existingValue operands with
  | error e => exact ⟨(fun h => nomatch h), fun ⟨_, h⟩ => nomatch h⟩
  | ok result =>
    refine ⟨fun _ => ?_, fun _ => rfl⟩
    cases result <;> exact ⟨_, rfl⟩

/-! ## §3. Acceptance is resolution. -/

/-- **A merge validates exactly when it resolves**, for every base and all operands of
bitmap and queue rows; of an adjacency row it also validates when resolving panics on a
length prefix. -/
theorem validate_accepts_iff (keyType : MergeKeyType) (existingValue : Option Bytes)
    (operands : List Bytes) :
    HelixMergeOperator.validateMergeWithBase codec keyType existingValue operands = .ok () ↔
      (∃ merged,
        HelixMergeOperator.mergeBatchWithBase codec keyType existingValue operands = .ok merged) ∨
      keyType = .edge ∧ ∃ direction,
        HelixMergeOperator.mergeBatchWithBase codec keyType existingValue operands =
          .error (exceedsPrefix direction) := by
  cases keyType with
  | edge =>
    rw [eq_self_iff_true, true_and]
    exact EdgeMergeOperator.validate_iff codec existingValue operands
  | bitmap base =>
    refine (BitmapMergeOperator.validate_iff codec base existingValue operands).trans ?_
    exact ⟨.inl, fun h => h.elim id fun h => nomatch h.1⟩
  | presence =>
    refine (BitmapMergeOperator.validate_iff codec .strict existingValue operands).trans ?_
    exact ⟨.inl, fun h => h.elim id fun h => nomatch h.1⟩
  | operationQueue =>
    refine (OperationQueueMergeOperator.validate_iff existingValue operands).trans ?_
    exact ⟨.inl, fun h => h.elim id fun h => nomatch h.1⟩

/-! A row that validates and does not resolve: two rows of `10 ^ 8` neighbours each,
one a shard. -/

variable {ids : Finset UInt64}

/-- A row with outgoing neighbours only. -/
def outgoingRow (ids : Finset UInt64) : Bytes :=
  [ENCODING_TYPE_NONE] ++ ((leBytes U32_LEN (portableCodec.serializedSize ids) ++
    portableCodec.serialize ids) ++
    (leBytes U32_LEN (portableCodec.serializedSize ∅) ++ portableCodec.serialize ∅))

theorem encodeEdges_outgoingRow (h : portableCodec.serializedSize ids < 2 ^ 32) :
    encodeEdges portableCodec ⟨ids, ∅⟩ = .ok (outgoingRow ids) := by
  have hempty : portableCodec.serializedSize ∅ < 2 ^ 32 := by decide +kernel
  unfold encodeEdges expectU32
  rw [if_pos h, if_pos hempty]
  rfl

/-- A written row is an operand that adds its neighbours. -/
theorem decodeOperand_outgoingRow (h : portableCodec.serializedSize ids < 2 ^ 32) :
    decodeOperand portableCodec (outgoingRow ids) =
      .ok (.fromEdges ⟨ids, ∅⟩) := by
  have hrow := encodeEdges_outgoingRow h
  unfold decodeOperand
  rw [decodeIfDelta_encodeEdges hrow, decodeEdges_encodeEdges portableCodec_lossless hrow]
  rfl

theorem applyTo_outgoing (low high : Finset UInt64) :
    (fromEdges ⟨high, ∅⟩).applyTo ⟨low, ∅⟩ = ⟨low ∪ high, ∅⟩ := by
  ext x
  · simp [applyTo, fromEdges,
      BitmapMembershipDelta.mem_applyTo, BitmapMembershipDelta.fromAdditions, or_comm]
  · simp [applyTo, fromEdges,
      BitmapMembershipDelta.mem_applyTo, BitmapMembershipDelta.fromAdditions]

/-- A change that decodes is accepted, whatever the row becomes. -/
theorem unresolvable_of_decodes {base operand : Bytes} {edges : Edges}
    {delta : AdjacencyMembershipDelta} (hbase : decodeEdges codec base = .ok edges)
    (hoperand : decodeOperand codec operand = .ok delta) (hne : (delta.applyTo edges).nxtsOut ≠ ∅)
    (hlong : ¬ codec.serializedSize (delta.applyTo edges).nxtsOut < 2 ^ 32) :
    HelixMergeOperator.validateMergeWithBase codec .edge (some base) [operand] = .ok () ∧
      HelixMergeOperator.mergeBatchWithBase codec .edge (some base) [operand] =
        .error (exceedsPrefix "outgoing") := by
  have hnonempty : ¬ (delta.applyTo edges).isEmpty = true := by
    rw [Edges.isEmpty, decide_eq_false hne]
    exact fun h => nomatch h
  constructor
  · show (mergeDecode (decodeEdges codec base) >>= fun _ =>
      (decodeOperand codec operand >>= fun _ => pure ()) >>= fun _ => pure ()) = _
    rw [hbase, hoperand]
    rfl
  · show (mergeDecode (decodeEdges codec base) >>= fun stored =>
      ((decodeOperand codec operand >>= fun delta =>
        pure (applyTo delta stored)) >>= fun merged => pure merged) >>=
          fun merged => if merged.isEmpty = true then pure Merged.tombstone
            else encodeEdges codec merged >>= fun bytes => pure (Merged.value bytes)) = _
    rw [hbase, hoperand]
    show (if (delta.applyTo edges).isEmpty = true then pure Merged.tombstone
      else encodeEdges codec (delta.applyTo edges) >>= _) = _
    rw [if_neg hnonempty]
    unfold encodeEdges expectU32
    rw [if_neg hlong]
    rfl

/-- Half of the neighbours are stored, the other half are merged in. -/
theorem validate_accepts_unresolvable :
    HelixMergeOperator.validateMergeWithBase portableCodec .edge
        (some (outgoingRow (shardIds 0 (10 ^ 8))))
        [outgoingRow (shardIds (10 ^ 8) (2 * 10 ^ 8))] = .ok () ∧
      HelixMergeOperator.mergeBatchWithBase portableCodec .edge
          (some (outgoingRow (shardIds 0 (10 ^ 8))))
          [outgoingRow (shardIds (10 ^ 8) (2 * 10 ^ 8))] =
        .error (exceedsPrefix "outgoing") := by
  have hlow : portableCodec.serializedSize (shardIds 0 (10 ^ 8)) < 2 ^ 32 := by
    rw [serializedSize_shardIds (by omega)]
    omega
  have hhigh : portableCodec.serializedSize (shardIds (10 ^ 8) (2 * 10 ^ 8)) < 2 ^ 32 := by
    rw [serializedSize_shardIds (by omega)]
    omega
  have hboth : ¬ portableCodec.serializedSize (shardIds 0 (2 * 10 ^ 8)) < 2 ^ 32 := by
    rw [serializedSize_shardIds (by omega)]
    omega
  have hstored := decodeEdges_encodeEdges portableCodec_lossless (encodeEdges_outgoingRow hlow)
  have hoperand := decodeOperand_outgoingRow hhigh
  have hmerged := applyTo_outgoing (shardIds 0 (10 ^ 8)) (shardIds (10 ^ 8) (2 * 10 ^ 8))
  rw [shardIds_union (by omega) (by omega)] at hmerged
  refine unresolvable_of_decodes portableCodec hstored hoperand ?_ (by rw [hmerged]; exact hboth)
  rw [hmerged]
  exact shardIds_ne_empty (by omega) (by omega)

end HelixDb.MergeOperator
