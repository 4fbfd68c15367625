/-
  HelixDb.Lib.DeltaMerge

  **MERGE OPERATORS THAT PRE-COMBINE DELTAS.**

  A store keeps a value of type `S` under a key and receives operands, each of
  which decodes to a delta of type `D` that acts on values.  Before it resolves
  the operands against the stored base, it may combine neighbouring ones, with
  calls that have no base: one operand at a time (`merge`) or many
  (`mergeBatch`).

  `DeltaOperator` collects the functions of such an operator and
  `DeltaOperator.Lawful` what each of them has to do.  Then

    • `evalList_acts` — any nesting of calls returns operands that hold their
      runs as one delta, or fails because the delta of a run it combines cannot
      be encoded,
    • `resolve_standsFor` — **resolution is independent of the nesting**: it
      yields the value the operands produce one at a time.
-/
import HelixDb.Lib.Grouping

namespace HelixDb.Lib

open List

/-- The outcome of resolving operands against a base. -/
inductive Merged where
  | value (bytes : Bytes)
  | tombstone
deriving DecidableEq

/-- The functions of a delta merge operator. -/
structure DeltaOperator (ε D S : Type) where
  decodeOperand : Bytes → Except ε D
  /-- The operator takes this existing value for a delta, not for a base. -/
  isDelta : Bytes → Bool
  encode : D → Except ε Bytes
  identity : D
  /-- Applies a newer delta after an older one. -/
  compose : D → D → D
  apply : D → S → S
  decodeBase : Bytes → Except ε S
  emptyBase : S
  isEmpty : S → Bool
  encodeBase : S → Except ε Bytes
  merge : Option Bytes → Bytes → Except ε Bytes
  mergeBatch : Option Bytes → List Bytes → Except ε Bytes
  mergeBatchWithBase : Option Bytes → List Bytes → Except ε Merged

/-- Decoding each operand in turn and folding what it decodes to. -/
theorem foldlM_decode {ε D S : Type} {decode : Bytes → Except ε D} {operands : List Bytes}
    {ds : List D} (hds : List.Forall₂ (fun o d => decode o = .ok d) operands ds) (f : S → D → S) :
    ∀ s, operands.foldlM (fun s o => do let d ← decode o; return f s d) s = .ok (ds.foldl f s) := by
  induction hds with
  | nil => intro s; rfl
  | cons hd _ ih =>
    intro s
    rw [foldlM_cons, hd]
    exact ih (f s _)

namespace DeltaOperator

variable {ε D S : Type} (op : DeltaOperator ε D S)

/-- Several deltas, oldest first, as one. -/
def composeAll (ds : List D) : D := ds.foldl op.compose op.identity

/-- Several deltas on a value, one at a time, oldest first. -/
def applyAll (ds : List D) (s : S) : S := ds.foldl (fun s d => op.apply d s) s

/-- Operands and the deltas they decode to. -/
def Decodes (operands : List Bytes) (ds : List D) : Prop :=
  List.Forall₂ (fun o d => op.decodeOperand o = .ok d) operands ds

/-- The value of a stored row, empty where there is none. -/
def baseValue (base : Option Bytes) : Except ε S :=
  match base with
  | none => .ok op.emptyBase
  | some bytes => op.decodeBase bytes

/-- The stored form of a value: an empty one leaves no row. -/
def store (s : S) : Except ε Merged :=
  if op.isEmpty s then .ok .tombstone
  else do
    let bytes ← op.encodeBase s
    return .value bytes

variable {op} in
theorem store_of_isEmpty {s : S} (h : op.isEmpty s = true) : op.store s = .ok .tombstone :=
  if_pos h

variable {op} in
theorem store_of_not_isEmpty {s : S} (h : op.isEmpty s = false) :
    op.store s = (do let bytes ← op.encodeBase s; return .value bytes) :=
  if_neg (by rw [h]; exact Bool.false_ne_true)

/-- What each function of the operator does, in terms of the deltas its
arguments decode to. -/
structure Lawful : Prop where
  compose_assoc : Std.Associative op.compose
  compose_identity : Std.LawfulIdentity op.compose op.identity
  apply_identity : ∀ s, op.apply op.identity s = s
  apply_compose : ∀ older newer s,
    op.apply (op.compose older newer) s = op.apply newer (op.apply older s)
  decode_encode : ∀ d bytes, op.encode d = .ok bytes →
    op.decodeOperand bytes = .ok d ∧ op.isDelta bytes = true
  merge_none : ∀ o d, op.decodeOperand o = .ok d → op.merge none o = op.encode d
  merge_some : ∀ e o de d, op.isDelta e = true → op.decodeOperand e = .ok de →
    op.decodeOperand o = .ok d → op.merge (some e) o = op.encode (op.compose de d)
  mergeBatch_none : ∀ os ds, op.Decodes os ds →
    op.mergeBatch none os = op.encode (op.composeAll ds)
  mergeBatch_some : ∀ e os de ds, op.isDelta e = true → op.decodeOperand e = .ok de →
    op.Decodes os ds → op.mergeBatch (some e) os = op.encode (op.compose de (op.composeAll ds))
  decode_encodeBase : ∀ s bytes, op.isEmpty s = false → op.encodeBase s = .ok bytes →
    op.decodeBase bytes = .ok s
  mergeBatchWithBase_eq : ∀ base os s ds, op.baseValue base = .ok s → op.Decodes os ds →
    op.mergeBatchWithBase base os = op.store (op.applyAll ds s)

variable {op} in
/-- The law of an operator whose calls decode their operands first: what is left to
show is how it merges a delta into an existing value. -/
theorem Lawful.of_mergeInto (mergeInto : Option Bytes → D → Except ε Bytes)
    (hassoc : Std.Associative op.compose) (hunit : Std.LawfulIdentity op.compose op.identity)
    (hidentity : ∀ s, op.apply op.identity s = s)
    (hcompose : ∀ older newer s,
      op.apply (op.compose older newer) s = op.apply newer (op.apply older s))
    (hencode : ∀ d bytes, op.encode d = .ok bytes →
      op.decodeOperand bytes = .ok d ∧ op.isDelta bytes = true)
    (hbase : ∀ s bytes, op.isEmpty s = false → op.encodeBase s = .ok bytes →
      op.decodeBase bytes = .ok s)
    (hnone : ∀ d, mergeInto none d = op.encode d)
    (hsome : ∀ e de d, op.isDelta e = true → op.decodeOperand e = .ok de →
      mergeInto (some e) d = op.encode (op.compose de d))
    (hmerge : ∀ e o, op.merge e o = op.decodeOperand o >>= mergeInto e)
    (hbatch : ∀ e os, op.mergeBatch e os = os.foldlM (fun d o => do
      let newer ← op.decodeOperand o
      return op.compose d newer) op.identity >>= mergeInto e)
    (hwithBase : ∀ base os, op.mergeBatchWithBase base os = (do
      let stored ← op.baseValue base
      let s ← os.foldlM (fun s o => do
        let d ← op.decodeOperand o
        return op.apply d s) stored
      op.store s)) : op.Lawful := by
  have hone : ∀ e {o d}, op.decodeOperand o = .ok d → op.merge e o = mergeInto e d := by
    intro e o d ho
    rw [hmerge, ho]
    rfl
  have hmany : ∀ e {os ds}, op.Decodes os ds → op.mergeBatch e os = mergeInto e (op.composeAll ds) := by
    intro e os ds hds
    rw [hbatch, foldlM_decode hds]
    rfl
  refine ⟨hassoc, hunit, hidentity, hcompose, hencode, fun o d ho => (hone none ho).trans (hnone d),
    fun e o de d hdelta he ho => (hone (some e) ho).trans (hsome e de d hdelta he),
    fun os ds hds => (hmany none hds).trans (hnone _),
    fun e os de ds hdelta he hds => (hmany (some e) hds).trans (hsome e de _ hdelta he), hbase, ?_⟩
  intro base os s ds hs hds
  rw [hwithBase, hs]
  show ((os.foldlM _ s : Except _ _) >>= _) = _
  rw [foldlM_decode hds fun s d => op.apply d s]
  rfl

/-! ## §1. Calls without a base. -/

/-- How a call is made: one operand at a time or as a batch, and whether the
oldest value is offered as the existing value. -/
structure Call where
  batched : Bool
  withExisting : Bool

/-- Operands merged one at a time onto an existing value. -/
def mergeEach (existing : Bytes) (operands : List Bytes) : Except ε Bytes :=
  operands.foldlM (fun acc o => op.merge (some acc) o) existing

/-- One combining call on neighbouring values.  The oldest is passed as the
existing value only where the operator takes it for a delta: a value it takes
for a base is not a call without a base. -/
def combine (call : Call) (first : Bytes) (rest : List Bytes) : Except ε Bytes :=
  if call.withExisting && op.isDelta first then
    if call.batched then op.mergeBatch (some first) rest else op.mergeEach first rest
  else if call.batched then op.mergeBatch none (first :: rest)
  else do
    let acc ← op.merge none first
    op.mergeEach acc rest

/-- `bytes` is an operand that holds the operands `run` as one delta. -/
def Acts (run : List Bytes) (bytes : Bytes) : Prop :=
  ∃ ds, op.Decodes run ds ∧ op.decodeOperand bytes = .ok (op.composeAll ds)

mutual

/-- The runs that the calls of a nesting combine: a batched call all of its
operands, calls with one operand at a time each run from the first on. -/
def calls : Grouping Call Bytes → List (List Bytes)
  | .leaf _ => []
  | .batch call first rest => calls first ++ (callsList rest ++
    if call.batched then [first.leaves ++ Grouping.leavesList rest]
    else rest.inits.map fun some => first.leaves ++ Grouping.leavesList some)

/-- The runs that the calls of neighbouring nestings combine. -/
def callsList : List (Grouping Call Bytes) → List (List Bytes)
  | [] => []
  | g :: gs => calls g ++ callsList gs

end

/-- The only way a nesting fails: the delta of a run that it combines cannot be
encoded. -/
def CannotEncode (groups : List (Grouping Call Bytes)) (e : ε) : Prop :=
  ∃ run ∈ callsList groups, ∃ ds, op.Decodes run ds ∧ op.encode (op.composeAll ds) = .error e

theorem calls_subset {t : Grouping Call Bytes} {ts : List (Grouping Call Bytes)} (h : t ∈ ts) :
    calls t ⊆ callsList ts := by
  induction h with
  | head ts =>
    rw [callsList]
    exact subset_append_left _ _
  | tail t' _ ih =>
    rw [callsList]
    exact subset_append_of_subset_right _ ih

variable {op} {operands : List Bytes} {groups : List (Grouping Call Bytes)}

section

variable (h : op.Lawful)
include h

/-- Deltas one after another, as one delta after another. -/
theorem Lawful.composeAll_append (xs ys : List D) :
    op.composeAll (xs ++ ys) = op.compose (op.composeAll xs) (op.composeAll ys) := by
  have := h.compose_assoc
  have hfold := @foldl_assoc D op.compose _ ys (op.composeAll xs) op.identity
  rw [h.compose_identity.right_id] at hfold
  exact (foldl_append ..).trans hfold

theorem Lawful.composeAll_cons (d : D) (ds : List D) :
    op.composeAll (d :: ds) = op.compose d (op.composeAll ds) := by
  rw [← singleton_append, h.composeAll_append]
  show op.compose (op.compose op.identity d) _ = _
  rw [h.compose_identity.left_id]

/-- One delta acts as the deltas it is made of do one after another. -/
theorem Lawful.apply_composeAll (ds : List D) :
    ∀ s, op.apply (op.composeAll ds) s = op.applyAll ds s := by
  induction ds with
  | nil => exact h.apply_identity
  | cons d ds ih =>
    intro s
    rw [h.composeAll_cons, h.apply_compose, ih]
    rfl

/-- Encoding the delta of a run yields an operand that holds it, or fails as
allowed. -/
theorem Lawful.encode_acts {run : List Bytes} {ds : List D}
    (hrun : run ∈ callsList groups) (hds : op.Decodes run ds) :
    Grouping.Yields (op.CannotEncode groups)
      (fun bytes => op.Acts run bytes ∧ op.isDelta bytes = true) (op.encode (op.composeAll ds)) := by
  cases hencode : op.encode (op.composeAll ds) with
  | ok bytes =>
    obtain ⟨hdecode, hdelta⟩ := h.decode_encode _ bytes hencode
    exact ⟨⟨ds, hds, hdecode⟩, hdelta⟩
  | error e => exact ⟨run, hrun, ds, hds, hencode⟩

/-- Neighbouring values hold together what the joined run holds. -/
theorem Lawful.acts_values {ts : List (Grouping Call Bytes)} {bs : List Bytes}
    (hbs : Grouping.Values op.Acts ts bs) :
    ∃ ds vs, op.Decodes (Grouping.leavesList ts) ds ∧ op.Decodes bs vs ∧
      op.composeAll vs = op.composeAll ds := by
  induction hbs with
  | nil =>
    refine ⟨[], [], ?_, List.Forall₂.nil, rfl⟩
    rw [Grouping.leavesList]
    exact List.Forall₂.nil
  | cons hb _ ih =>
    obtain ⟨ds, hds, hb⟩ := hb
    obtain ⟨ds', vs, hds', hvs, heq⟩ := ih
    refine ⟨ds ++ ds', op.composeAll ds :: vs, ?_, List.Forall₂.cons hb hvs, ?_⟩
    · rw [Grouping.leavesList]
      exact rel_append hds hds'
    · rw [h.composeAll_cons, heq, h.composeAll_append]

/-- Merging one operand at a time onto a delta. -/
theorem Lawful.mergeEach_acts {ts : List (Grouping Call Bytes)} {bs : List Bytes}
    (hbs : Grouping.Values op.Acts ts bs) :
    ∀ (run : List Bytes) (acc : Bytes), (op.Acts run acc ∧ op.isDelta acc = true) →
      (∀ some, some <+: ts → run ++ Grouping.leavesList some ∈ callsList groups) →
      Grouping.Yields (op.CannotEncode groups)
        (fun bytes => op.Acts (run ++ Grouping.leavesList ts) bytes ∧ op.isDelta bytes = true)
        (op.mergeEach acc bs) := by
  induction hbs with
  | nil =>
    intro run acc hacc _
    rwa [Grouping.leavesList, append_nil]
  | @cons t b ts bs hb _ ih =>
    intro run acc hacc hruns
    obtain ⟨⟨ds, hds, hd⟩, hdelta⟩ := hacc
    obtain ⟨ds', hds', hd'⟩ := hb
    -- the first merge is a call on the run so far and the next part together
    have hcall : ∀ some, some <+: ts →
        run ++ t.leaves ++ Grouping.leavesList some ∈ callsList groups := by
      intro some hsome
      have hrun := hruns (t :: some) (prefix_cons_inj t |>.mpr hsome)
      rwa [Grouping.leavesList, ← append_assoc] at hrun
    have hfirst := hcall [] nil_prefix
    rw [Grouping.leavesList, append_nil] at hfirst
    have hstep := h.encode_acts hfirst (rel_append hds hds')
    rw [h.composeAll_append, ← h.merge_some acc b _ _ hdelta hd hd'] at hstep
    rw [Grouping.leavesList, ← append_assoc]
    exact hstep.bind fun acc' hacc' => ih (run ++ t.leaves) acc' hacc' hcall

/-- **One combining call** on neighbouring values holds the joined run. -/
theorem Lawful.combine_acts {call : Call} {first : Grouping Call Bytes}
    {rest : List (Grouping Call Bytes)} {b : Bytes} {bs : List Bytes}
    (hcalls : calls (.batch call first rest) ⊆ callsList groups) (hb : op.Acts first.leaves b)
    (hbs : Grouping.Values op.Acts rest bs) :
    Grouping.Yields (op.CannotEncode groups) (op.Acts (first.leaves ++ Grouping.leavesList rest))
      (op.combine call b bs) := by
  obtain ⟨ds, hds, hd⟩ := hb
  rw [calls, append_subset, append_subset] at hcalls
  have hown := hcalls.2.2
  unfold combine
  cases hbatched : call.batched with
  | true =>
    obtain ⟨ds', vs, hds', hvs, heq⟩ := h.acts_values hbs
    rw [hbatched, if_pos rfl] at hown
    have hjoined := (h.encode_acts (hown (mem_singleton_self _)) (rel_append hds hds')).mono
      fun _ hacts => hacts.1
    rw [h.composeAll_append, ← heq] at hjoined
    by_cases hexisting : (call.withExisting && op.isDelta b) = true
    · rw [if_pos hexisting, if_pos rfl,
        h.mergeBatch_some _ _ _ _ (Bool.and_eq_true_iff.mp hexisting).2 hd hvs]
      exact hjoined
    · rw [if_neg hexisting, if_pos rfl, h.mergeBatch_none _ _ (List.Forall₂.cons hd hvs),
        h.composeAll_cons]
      exact hjoined
  | false =>
    rw [hbatched, if_neg Bool.false_ne_true] at hown
    have hruns : ∀ some, some <+: rest →
        first.leaves ++ Grouping.leavesList some ∈ callsList groups :=
      fun some hsome => hown (mem_map_of_mem (mem_inits _ _ |>.mpr hsome))
    have heach : ∀ acc, (op.Acts first.leaves acc ∧ op.isDelta acc = true) →
        Grouping.Yields (op.CannotEncode groups)
          (op.Acts (first.leaves ++ Grouping.leavesList rest)) (op.mergeEach acc bs) :=
      fun acc hacc => (h.mergeEach_acts hbs _ acc hacc hruns).mono fun _ hacts => hacts.1
    by_cases hexisting : (call.withExisting && op.isDelta b) = true
    · rw [if_pos hexisting, if_neg Bool.false_ne_true]
      exact heach b ⟨⟨ds, hds, hd⟩, (Bool.and_eq_true_iff.mp hexisting).2⟩
    · rw [if_neg hexisting, if_neg Bool.false_ne_true]
      have halone := hruns [] nil_prefix
      rw [Grouping.leavesList, append_nil] at halone
      have hfirst := h.encode_acts halone hds
      rw [← h.merge_none _ _ hd] at hfirst
      exact hfirst.bind heach

end

/-! ## §2. Resolution. -/

/-- Groups of operands pre-combined, then resolved against the base. -/
def resolve (op : DeltaOperator ε D S) (base : Option Bytes)
    (groups : List (Grouping Call Bytes)) : Except ε Merged := do
  let combined ← Grouping.evalList pure op.combine groups
  op.mergeBatchWithBase base combined

/-- A result that stands for the value `s`: a tombstone exactly for an empty
one, otherwise bytes that read back as it. -/
def StandsFor (op : DeltaOperator ε D S) (s : S) (result : Merged) : Prop :=
  (result = .tombstone ↔ op.isEmpty s = true) ∧
    ∀ bytes, result = .value bytes → op.decodeBase bytes = .ok s

theorem Lawful.store_standsFor (h : op.Lawful) (s : S) :
    Grouping.Yields (fun e => op.store s = .error e) (op.StandsFor s) (op.store s) := by
  cases hempty : op.isEmpty s with
  | true =>
    rw [store_of_isEmpty hempty]
    exact ⟨by simp [hempty], by simp⟩
  | false =>
    rw [store_of_not_isEmpty hempty]
    cases hencode : op.encodeBase s with
    | ok bytes =>
      refine ⟨by simp [hempty], ?_⟩
      rintro bytes' ⟨⟩
      exact h.decode_encodeBase s bytes hempty hencode
    | error e => exact rfl

theorem Decodes.exists_of_mem {ds : List D} (hds : op.Decodes operands ds) :
    ∀ o ∈ operands, ∃ d, op.decodeOperand o = .ok d := by
  induction hds with
  | nil => simp
  | cons hd _ ih => exact forall_mem_cons.mpr ⟨⟨_, hd⟩, ih⟩

/-- Every nesting of calls over decodable operands returns operands that hold
their runs. -/
theorem Lawful.evalList_acts (h : op.Lawful) {ds : List D}
    (hds : op.Decodes (Grouping.leavesList groups) ds) :
    Grouping.Yields (op.CannotEncode groups) (Grouping.Values op.Acts groups)
      (Grouping.evalList pure op.combine groups) := by
  have hkeeps : Grouping.Keeps
      (fun t => calls t ⊆ callsList groups ∧ t.leaves ⊆ Grouping.leavesList groups)
      (op.CannotEncode groups) op.Acts pure op.combine := by
    refine ⟨?_, ?_, fun call first rest b bs ht hb hbs => h.combine_acts ht.1 hb hbs⟩
    · intro call first rest ht t hmem
      have hcalls : callsList (first :: rest) ⊆ calls (.batch call first rest) := by
        rw [callsList, calls, ← append_assoc]
        exact subset_append_left _ _
      have hleaves : Grouping.leavesList (first :: rest) =
          Grouping.leaves (.batch call first rest) := by rw [Grouping.leavesList, Grouping.leaves]
      exact ⟨Subset.trans (calls_subset hmem) (Subset.trans hcalls ht.1),
        Subset.trans (Grouping.leaves_part hmem).subset (hleaves ▸ ht.2)⟩
    · -- a single operand holds itself
      intro o ho
      have hmem : o ∈ Grouping.leavesList groups := ho.2 (by simp [Grouping.leaves])
      obtain ⟨d, hd⟩ := hds.exists_of_mem o hmem
      refine ⟨[d], List.Forall₂.cons hd List.Forall₂.nil, ?_⟩
      rw [h.composeAll_cons]
      exact hd.trans (congrArg _ (h.compose_identity.right_id d).symm)
  refine hkeeps.evalList groups fun t ht => ?_
  exact ⟨calls_subset ht, (Grouping.leaves_part ht).subset⟩

/-- **Resolution is independent of the nesting.**  It yields the value that
the operands produce one at a time on the base, unless the delta of a run that
is combined or the value itself cannot be encoded. -/
theorem Lawful.resolve_standsFor (h : op.Lawful) {base : Option Bytes} {s : S} {ds : List D}
    (hbase : op.baseValue base = .ok s) (hds : op.Decodes (Grouping.leavesList groups) ds) :
    Grouping.Yields
      (fun e => op.CannotEncode groups e ∨ op.store (op.applyAll ds s) = .error e)
      (op.StandsFor (op.applyAll ds s)) (op.resolve base groups) := by
  have hcombined := (h.evalList_acts hds).weaken fun e he =>
    (Or.inl he : op.CannotEncode groups e ∨ op.store (op.applyAll ds s) = .error e)
  refine hcombined.bind fun combined hvalues => ?_
  obtain ⟨ds', vs, hds', hvs, heq⟩ := h.acts_values hvalues
  have hunique : ds = ds' := by
    refine right_unique_forall₂' ?_ hds hds'
    intro o d d' hd hd'
    exact Except.ok.inj (hd.symm.trans hd')
  rw [h.mergeBatchWithBase_eq base _ s vs hbase hvs, ← h.apply_composeAll vs, heq, ← hunique,
    h.apply_composeAll]
  exact (h.store_standsFor _).weaken fun _ he => Or.inr he

end DeltaOperator

end HelixDb.Lib
