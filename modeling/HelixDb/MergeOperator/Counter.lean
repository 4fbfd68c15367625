/-
  HelixDb.MergeOperator.Counter

  **THE COUNTER MERGE OPERATOR.**

  An increment is a signed word; merging adds and then clamps at zero.  A store may
  merge runs of increments before it sees the base, in any nesting, so that a run
  which is negative on its own is clamped before the base can absorb it.  The sum is
  an `i64` addition, which overflows where the exact sum does not fit.

    • `resolve_bounds` — what any nesting returns lies between the sum
      of the increments and the sum of the positive ones,
    • `groupings_agree_iff` — exactly which bases and increments every nesting agrees
      on.
-/
import HelixDb.Lib.Checked
import HelixDb.Lib.FoldM
import HelixDb.Lib.Grouping
import HelixDb.Membership.BitmapDelta

namespace HelixDb.MergeOperator

open HelixDb.Lib HelixDb.Membership
open Prod (fst snd)
open List (append_nil flatMap_cons foldlM_cons forall_mem_cons map_cons prefix_append
  prefix_append_right_inj)

/-! ## §1. The operator. -/

/-- `i64` addition; an overflow is a failure. -/
def addI64 (left right : Int) : Except MergeFault Int :=
  match signed 64 (left + right) with
  | some sum => .ok sum
  | none => .error (.panicked "attempt to add with overflow")

namespace CounterMergeOperator

/-- The signed reading of 64 bits. -/
def ofBits (bits : Nat) : Int := if bits < 2 ^ 63 then bits else bits - 2 ^ 64

/-- The first eight bytes as a big-endian `i64`, zero where there are fewer. -/
def decode (data : Bytes) : Int :=
  if 8 ≤ data.length then ofBits (ofBe (data.take 8)) else 0

/-- The big-endian bytes of an `i64`. -/
def encode (value : Int) : Bytes := beBytes 8 (value % 2 ^ 64).toNat

/-- One operand onto a value; the sum does not go below zero. -/
def merge (existingValue : Option Bytes) (operand : Bytes) : Except MergeFault Bytes := do
  let total ← addI64 (existingValue.elim 0 decode) (decode operand)
  return encode (max total 0)

/-- The sum of a run; only the total does not go below zero. -/
def mergeBatch (existingValue : Option Bytes) (operands : List Bytes) :
    Except MergeFault Bytes := do
  let total ← operands.foldlM (fun total operand => addI64 total (decode operand))
    (existingValue.elim 0 decode)
  return encode (max total 0)

end CounterMergeOperator

open CounterMergeOperator

/-! ## §2. Groupings of increments. -/

/-- A call that merges neighbouring values without the base: one value after the
other, all in one batch, or in one batch onto the oldest of them. -/
inductive PartialCall where
  | merges
  | batch
  | batchOnto
deriving DecidableEq

/-- A run of operands without the base, by the three ways a store can merge it. -/
def PartialCall.run : PartialCall → Bytes → List Bytes → Except MergeFault Bytes
  | .merges, first, [] => merge none first
  | .merges, first, rest => rest.foldlM (fun value operand => merge (some value) operand) first
  | .batch, first, rest => mergeBatch none (first :: rest)
  | .batchOnto, first, rest => mergeBatch (some first) rest

/-- One way of merging a run of increments before the base is known. -/
abbrev Run := Grouping PartialCall Int64

/-- A stored count, or the operand of an increment. -/
def word (value : Int64) : Bytes := encode value.toInt

/-- What a run is merged to. -/
def Run.eval (run : Run) : Except MergeFault Bytes :=
  Grouping.eval (fun increment => .ok (word increment)) PartialCall.run run

/-- What neighbouring runs are merged to. -/
def Run.evalList (runs : List Run) : Except MergeFault (List Bytes) :=
  Grouping.evalList (fun increment => .ok (word increment)) PartialCall.run runs

/-- One call with the stored value. -/
inductive Step where
  | merge (run : Run)
  | mergeBatch (first : Run) (rest : List Run)

namespace Step

/-- The increments of a call, oldest first. -/
def leaves : Step → List Int64
  | .merge run => run.leaves
  | .mergeBatch first rest => Grouping.leavesList (first :: rest)

/-- One step onto a value. -/
def apply (step : Step) (existingValue : Option Bytes) : Except MergeFault Bytes :=
  match step with
  | .merge run => do
    let operand ← run.eval
    CounterMergeOperator.merge existingValue operand
  | .mergeBatch first rest => do
    let operands ← Run.evalList (first :: rest)
    CounterMergeOperator.mergeBatch existingValue operands

end Step

/-- Calls with the stored value, one after the other. -/
def resolve (existingValue : Option Bytes) : List Step → Except MergeFault (Option Bytes)
  | [] => .ok existingValue
  | step :: steps => do
    let value ← step.apply existingValue
    resolve (some value) steps

/-- The count of a row; no row counts zero. -/
def count (value : Option Bytes) : Int := value.elim 0 decode

/-! ## §3. Numbers of bytes. -/

/-- The range of `i64`. -/
def InRange (value : Int) : Prop := -2 ^ 63 ≤ value ∧ value < 2 ^ 63

instance (value : Int) : Decidable (InRange value) := inferInstanceAs (Decidable (_ ∧ _))

theorem inRange_toInt (n : Int64) : InRange n.toInt := ⟨n.le_toInt, n.toInt_lt⟩

theorem addI64_eq_ok {left right sum : Int} :
    addI64 left right = .ok sum ↔ sum = left + right ∧ InRange (left + right) := by
  unfold addI64 signed InRange
  split_ifs with h
  · constructor
    · intro heq
      cases heq
      exact ⟨rfl, h⟩
    · rintro ⟨rfl, -⟩
      rfl
  · exact ⟨(fun heq => nomatch heq), fun hs => absurd hs.2 h⟩

variable {value base : Int}

theorem decode_encode (h : InRange value) : decode (encode value) = value := by
  have hbytes : ofBe (beBytes 8 (value % 2 ^ 64).toNat) = (value % 2 ^ 64).toNat :=
    ofBe_beBytes 8 _ (by omega)
  unfold decode encode
  rw [if_pos (by rw [beBytes_length]), List.take_of_length_le (by rw [beBytes_length])]
  unfold InRange at h
  unfold ofBits
  split <;> omega

theorem merge_eq (existingValue : Option Bytes) (operand : Bytes) :
    merge existingValue operand = mergeBatch existingValue [operand] := by
  unfold merge mergeBatch
  rw [foldlM_cons]
  cases addI64 (existingValue.elim 0 decode) (decode operand) <;> rfl

/-! ## §4. Bounds of every grouping. -/

/-- The sum of a run. -/
def low (run : List Int64) : Int := (run.map Int64.toInt).sum

/-- The sum of the positive increments of a run. -/
def high (run : List Int64) : Int := (run.map fun increment => max increment.toInt 0).sum

@[simp] theorem low_nil : low [] = 0 := rfl

@[simp] theorem high_nil : high [] = 0 := rfl

@[simp] theorem low_cons (d : Int64) (run : List Int64) : low (d :: run) = d.toInt + low run := rfl

@[simp] theorem high_cons (d : Int64) (run : List Int64) :
    high (d :: run) = max d.toInt 0 + high run := rfl

@[simp] theorem low_append (xs ys : List Int64) : low (xs ++ ys) = low xs + low ys := by
  simp [low]

@[simp] theorem high_append (xs ys : List Int64) : high (xs ++ ys) = high xs + high ys := by
  simp [high]

theorem high_nonneg (run : List Int64) : 0 ≤ high run := by
  induction run with
  | nil => exact le_rfl
  | cons d run ih =>
    rw [high_cons]
    omega

theorem low_le_high (run : List Int64) : low run ≤ high run := by
  induction run with
  | nil => exact le_rfl
  | cons d run ih =>
    rw [low_cons, high_cons]
    omega

theorem high_le_of_part {part run : List Int64} (h : part <:+: run) : high part ≤ high run := by
  obtain ⟨before, after, rfl⟩ := h
  rw [high_append, high_append]
  have hbefore := high_nonneg before
  have hafter := high_nonneg after
  omega

/-- A run whose parts all have sums within the range of `i64`. -/
def Admissible (run : List Int64) : Prop :=
  (∀ part, part <:+: run → -2 ^ 63 ≤ low part) ∧ high run < 2 ^ 63

theorem Admissible.part {xs ys : List Int64} (h : xs <:+: ys) (hys : Admissible ys) :
    Admissible xs :=
  ⟨fun part hpart => hys.1 part (hpart.trans h), (high_le_of_part h).trans_lt hys.2⟩

/-- A value between the sum of its run and the sum of the positive increments. -/
def Between (run : List Int64) (bytes : Bytes) : Prop :=
  ∃ value, bytes = encode value ∧ InRange value ∧ low run ≤ value ∧ value ≤ high run

/-- A total between two bounds that a run does not push out of the range of `i64`. -/
structure Room (lo hi total : Int) (run : List Int64) : Prop where
  above : lo ≤ total
  below : total ≤ hi
  inRange : InRange total
  lower : ∀ start, start <+: run → -2 ^ 63 ≤ lo + low start
  upper : hi + high run < 2 ^ 63

section Room

variable {lo hi total : Int} {part rest : List Int64}

theorem Room.init (h : Room lo hi total (part ++ rest)) : Room lo hi total part where
  above := h.above
  below := h.below
  inRange := h.inRange
  lower start hstart := h.lower start (hstart.trans (prefix_append _ _))
  upper := by
    have hupper := h.upper
    have hrest := high_nonneg rest
    rw [high_append] at hupper
    omega

/-- A part of the run moves the total and its bounds. -/
theorem Room.next (h : Room lo hi total (part ++ rest)) (next : Int) (hlow : lo + low part ≤ next)
    (hhigh : next ≤ hi + high part) : Room (lo + low part) (hi + high part) next rest where
  above := hlow
  below := hhigh
  inRange := by
    have hlower := h.init.lower part (List.prefix_refl part)
    have hupper := h.init.upper
    unfold InRange
    omega
  lower start hstart := by
    have hjoin := h.lower (part ++ start) ((prefix_append_right_inj _).mpr hstart)
    rw [low_append] at hjoin
    omega
  upper := by
    have hupper := h.upper
    rw [high_append] at hupper
    omega

theorem Room.nil (h : Room lo hi total []) : Room (lo + low []) (hi + high []) total [] := by
  simpa using h

end Room

variable {lo hi : Int}

/-- The sum of neighbouring values, onto a total between two bounds. -/
theorem foldlM_add_bounds (parts : List (List Int64 × Bytes)) : ∀ {total lo hi : Int},
    Room lo hi total (parts.flatMap fst) → (∀ part ∈ parts, Between part.1 part.2) →
    ∃ sum, (parts.map snd).foldlM (fun total operand => addI64 total (decode operand)) total =
        .ok sum ∧
      Room (lo + low (parts.flatMap fst)) (hi + high (parts.flatMap fst)) sum [] := by
  induction parts with
  | nil => exact fun h _ => ⟨_, rfl, h.nil⟩
  | cons part parts ih =>
    intro total lo hi h hparts
    obtain ⟨hpart, hparts⟩ := forall_mem_cons.mp hparts
    obtain ⟨value, hvalue, hvalueRange, hvalueLow, hvalueHigh⟩ := hpart
    rw [flatMap_cons] at h ⊢
    have hlo := h.above
    have hhi := h.below
    have hnext : Room (lo + low part.1) (hi + high part.1) (total + value) _ :=
      h.next _ (by omega) (by omega)
    have hadd : addI64 total (decode part.2) = .ok (total + value) := by
      rw [hvalue, decode_encode hvalueRange]
      exact addI64_eq_ok.mpr ⟨rfl, hnext.inRange⟩
    obtain ⟨sum, hfold, hsum⟩ := ih hnext hparts
    refine ⟨sum, ?_, ?_⟩
    · rwa [map_cons, foldlM_cons, hadd]
    · simpa [add_assoc] using hsum

/-- A batch of neighbouring values onto a total between two bounds. -/
theorem mergeBatch_bounds (parts : List (List Int64 × Bytes)) (existingValue : Option Bytes)
    (h : Room lo hi (count existingValue) (parts.flatMap fst))
    (hparts : ∀ part ∈ parts, Between part.1 part.2) :
    ∃ value, mergeBatch existingValue (parts.map snd) = .ok (encode value) ∧ InRange value ∧
      max (lo + low (parts.flatMap fst)) 0 ≤ value ∧
      value ≤ max (hi + high (parts.flatMap fst)) 0 := by
  obtain ⟨sum, hfold, hlow, hhigh, hrange, -⟩ := foldlM_add_bounds parts h hparts
  refine ⟨max sum 0, ?_, ?_, by omega, by omega⟩
  · show (List.foldlM _ (count existingValue) _ >>= _) = _
    rw [hfold]
    rfl
  · unfold InRange at hrange ⊢
    omega

theorem count_some (bytes : Bytes) : count (some bytes) = decode bytes := rfl

theorem count_some_encode (h : InRange value) :
    count (some (encode value)) = value := by
  rw [count_some, decode_encode h]

theorem Room.count_encode {run : List Int64} (h : Room lo hi value run) :
    Room lo hi (count (some (encode value))) run := by
  rwa [count_some_encode h.inRange]

/-- Values merged one after the other onto a value between two bounds, the upper one
not negative. -/
theorem foldlM_merge_bounds (parts : List (List Int64 × Bytes)) : ∀ {value lo hi : Int},
    Room lo hi value (parts.flatMap fst) → 0 ≤ hi →
    (∀ part ∈ parts, Between part.1 part.2) →
    ∃ result, (parts.map snd).foldlM (fun value operand => merge (some value) operand)
        (encode value) = .ok (encode result) ∧
      Room (lo + low (parts.flatMap fst)) (hi + high (parts.flatMap fst)) result [] := by
  induction parts with
  | nil => exact fun h _ _ => ⟨_, rfl, h.nil⟩
  | cons part parts ih =>
    intro value lo hi h hnonneg hparts
    obtain ⟨hpart, hparts⟩ := forall_mem_cons.mp hparts
    have hpartHigh := high_nonneg part.1
    have hone : [part].flatMap fst = part.1 := by simp
    rw [flatMap_cons] at h ⊢
    obtain ⟨next, hmerge, -, hnextLow, hnextHigh⟩ := mergeBatch_bounds [part] (some (encode value))
      (by rw [hone]; exact h.init.count_encode) (by simpa using hpart)
    rw [hone] at hnextLow hnextHigh
    obtain ⟨result, hfold, hresult⟩ := ih (h.next next (by omega) (by omega)) (by omega) hparts
    refine ⟨result, ?_, ?_⟩
    · rw [map_cons, foldlM_cons, merge_eq]
      show (mergeBatch (some (encode value)) ([part].map snd) >>= _) = _
      rwa [hmerge]
    · simpa [add_assoc] using hresult

/-- **A call without the base** keeps a run's value between its bounds. -/
theorem run_combines : Grouping.Combines (fun _ => False) Admissible Between PartialCall.run := by
  intro call x xs hrel hadm
  obtain ⟨hx, hxs⟩ := forall_mem_cons.mp hrel
  have hhigh := hadm.2
  have hnonneg := high_nonneg ((x :: xs).flatMap fst)
  have hroom : Room 0 0 0 ((x :: xs).flatMap fst) := by
    refine ⟨le_rfl, le_rfl, by decide, fun start hstart => ?_, by omega⟩
    rw [Int.zero_add]
    exact hadm.1 start hstart.isInfix
  obtain ⟨value, hvalue, hvalueRange, hvalueLow, hvalueHigh⟩ := hx
  -- The bounds of the later values, onto the oldest one.
  have honto : Room (low x.1) (high x.1) value (xs.flatMap fst) := by
    have hnext := hroom.next value (by simpa using hvalueLow) (by simpa using hvalueHigh)
    rwa [Int.zero_add, Int.zero_add] at hnext
  have hjoinLow : low ((x :: xs).flatMap fst) = low x.1 + low (xs.flatMap fst) := by simp
  have hjoinHigh : high ((x :: xs).flatMap fst) = high x.1 + high (xs.flatMap fst) := by simp
  have hfresh : ∃ bytes, mergeBatch none ((x :: xs).map snd) = .ok bytes ∧
      Between ((x :: xs).flatMap fst) bytes := by
    obtain ⟨result, hmerge, hrange, hlow, hhigh⟩ := mergeBatch_bounds (x :: xs) none hroom hrel
    exact ⟨_, hmerge, result, rfl, hrange, by omega, by omega⟩
  cases call with
  | batch =>
    obtain ⟨bytes, hmerge, hbetween⟩ := hfresh
    show Grouping.Yields _ _ (mergeBatch none ((x :: xs).map snd))
    rwa [hmerge]
  | batchOnto =>
    obtain ⟨result, hmerge, hrange, hlow, hhigh⟩ :=
      mergeBatch_bounds xs (some x.2) (hvalue ▸ honto.count_encode) hxs
    show Grouping.Yields _ _ (mergeBatch (some x.2) (xs.map snd))
    rw [hmerge]
    exact ⟨result, rfl, hrange, by omega, by omega⟩
  | merges =>
    cases xs with
    | nil =>
      obtain ⟨bytes, hmerge, hbetween⟩ := hfresh
      show Grouping.Yields _ _ (merge none x.2)
      rw [merge_eq]
      show Grouping.Yields _ _ (mergeBatch none ([x].map snd))
      rwa [hmerge]
    | cons y ys =>
      obtain ⟨result, hfold, hlow, hhigh, hrange, -⟩ :=
        foldlM_merge_bounds (y :: ys) honto (high_nonneg x.1) hxs
      show Grouping.Yields _ _ (((y :: ys).map snd).foldlM
        (fun value operand => merge (some value) operand) x.2)
      rw [hvalue, hfold]
      exact ⟨result, rfl, hrange, by omega, by omega⟩

theorem leaf_between (increment : Int64) :
    Grouping.Yields (fun _ => False) (Between [increment])
      (.ok (word increment) : Except MergeFault Bytes) :=
  ⟨increment.toInt, rfl, inRange_toInt increment, by simp, by simp⟩

/-! ## §5. Calls with the base. -/

/-- A call onto a value between two bounds. -/
theorem Step.apply_bounds (step : Step) (existingValue : Option Bytes)
    (hadm : Admissible step.leaves) (h : Room lo hi (count existingValue) step.leaves) :
    ∃ value, step.apply existingValue = .ok (encode value) ∧ InRange value ∧
      max (lo + low step.leaves) 0 ≤ value ∧ value ≤ max (hi + high step.leaves) 0 := by
  cases step with
  | merge run =>
    -- Every nesting of calls keeps a run's value between its bounds.
    obtain ⟨bytes, heval, hbetween⟩ := (Grouping.eval_rel (fun _ _ => Admissible.part)
      (fun increment _ => leaf_between increment) run_combines run hadm).exists_ok
    have hone : [(run.leaves, bytes)].flatMap fst = run.leaves := by simp
    obtain ⟨value, hmerge, hbounds⟩ := mergeBatch_bounds [(run.leaves, bytes)] existingValue
      (by rw [hone]; exact h) (by simpa using hbetween)
    rw [hone] at hbounds
    refine ⟨value, ?_, hbounds⟩
    show (run.eval >>= fun operand => CounterMergeOperator.merge existingValue operand) = _
    rw [show run.eval = .ok bytes from heval]
    exact (merge_eq existingValue bytes).trans hmerge
  | mergeBatch first rest =>
    obtain ⟨_, heval, parts, rfl, hruns, hparts⟩ := (Grouping.evalList_rel
      (fun _ _ => Admissible.part) (fun increment _ => leaf_between increment) run_combines
      (first :: rest) hadm).exists_ok
    have hleaves : (Step.mergeBatch first rest).leaves = parts.flatMap fst := hruns.symm
    rw [hleaves] at h ⊢
    obtain ⟨value, hmerge, hbounds⟩ := mergeBatch_bounds parts existingValue h hparts
    refine ⟨value, ?_, hbounds⟩
    show (Run.evalList (first :: rest) >>= fun operands =>
      CounterMergeOperator.mergeBatch existingValue operands) = _
    rwa [show Run.evalList (first :: rest) = _ from heval]

/-- The increments of all calls, oldest first. -/
def leavesOf (steps : List Step) : List Int64 := steps.flatMap Step.leaves

theorem leavesOf_cons (step : Step) (steps : List Step) :
    leavesOf (step :: steps) = step.leaves ++ leavesOf steps := flatMap_cons

/-- Further calls onto a value between two bounds, the upper one not negative. -/
theorem resolve_bounds (steps : List Step) : ∀ {value lo hi : Int},
    0 ≤ value → Admissible (leavesOf steps) → Room lo hi value (leavesOf steps) →
    ∃ result, resolve (some (encode value)) steps = .ok (some (encode result)) ∧ InRange result ∧
      max (lo + low (leavesOf steps)) 0 ≤ result ∧ result ≤ hi + high (leavesOf steps) := by
  induction steps with
  | nil =>
    intro value lo hi hnonneg _ h
    have hlo := h.above
    have hhi := h.below
    have hnil : leavesOf [] = [] := rfl
    rw [hnil, low_nil, high_nil]
    exact ⟨value, rfl, h.inRange, by omega, by omega⟩
  | cons step steps ih =>
    intro value lo hi hnonneg hadm h
    rw [leavesOf_cons] at hadm h ⊢
    have hhi := h.below
    have hstepHigh := high_nonneg step.leaves
    obtain ⟨next, happly, -, hnextLow, hnextHigh⟩ := step.apply_bounds (some (encode value))
      (hadm.part (prefix_append _ _).isInfix) h.init.count_encode
    obtain ⟨result, hresolve, hresultRange, hresultLow, hresultHigh⟩ :=
      ih (by omega) (hadm.part (List.suffix_append _ _).isInfix)
        (h.next next (by omega) (by omega))
    refine ⟨result, ?_, hresultRange, ?_, ?_⟩
    · show (step.apply (some (encode value)) >>= fun value => resolve (some value) steps) = _
      rwa [happly]
    · rw [low_append]
      omega
    · rw [high_append]
      omega

/-! ## §6. When every grouping agrees. -/

/-- Every way of merging the increments returns, and leaves the count that one batch
over all of them leaves. -/
def GroupingsAgree (stored : Option Int64) (increments : List Int64) : Prop :=
  ∃ value, (mergeBatch (stored.map word) (increments.map word)).map decode = .ok value ∧
    ∀ steps, leavesOf steps = increments →
      (resolve (stored.map word) steps).map count = .ok value

/-- Nothing is clamped, or everything is.  Either no increment is negative and the first
one makes up for a negative base, or no increment but the first is positive and the base
swallows that one.  The sums stay within `i64`. -/
def NeverMatters (base : Int) (increments : List Int64) : Prop :=
  ((∀ increment ∈ increments, 0 ≤ increment.toInt) ∧ 0 ≤ base + low (increments.take 1) ∧
    low increments < 2 ^ 63 ∧ base + low increments < 2 ^ 63) ∨
  (increments ≠ [] ∧ (∀ increment ∈ increments.tail, increment.toInt ≤ 0) ∧
    base + high (increments.take 1) ≤ 0 ∧ -2 ^ 63 ≤ base + low increments)

variable {run : List Int64}

theorem high_eq_low : high run = low run ↔ ∀ d ∈ run, 0 ≤ d.toInt := by
  induction run with
  | nil => simp [high, low]
  | cons d run ih =>
    have hle := low_le_high run
    rw [high_cons, low_cons, forall_mem_cons, ← ih]
    omega

theorem high_eq_zero : high run = 0 ↔ ∀ d ∈ run, d.toInt ≤ 0 := by
  induction run with
  | nil => simp [high]
  | cons d run ih =>
    have hle := high_nonneg run
    rw [high_cons, forall_mem_cons, ← ih]
    omega

theorem low_nonneg (h : ∀ d ∈ run, 0 ≤ d.toInt) : 0 ≤ low run := by
  rw [← high_eq_low.mpr h]
  exact high_nonneg run

theorem low_nonpos (h : ∀ d ∈ run, d.toInt ≤ 0) : low run ≤ 0 := by
  have hle := low_le_high run
  rwa [high_eq_zero.mpr h] at hle

/-- What the bounds of a run's groupings need. -/
structure Bounded (base : Int) (increments : List Int64) : Prop where
  admissible : Admissible increments
  lower : ∀ run, run <+: increments → -2 ^ 63 ≤ base + low run
  upper : base + high increments < 2 ^ 63

theorem Bounded.room {increments : List Int64} (h : Bounded base increments)
    (hbase : InRange base) : Room base base base increments :=
  ⟨le_rfl, le_rfl, hbase, h.lower, h.upper⟩

variable {increments : List Int64}

theorem NeverMatters.bounded (hbase : InRange base)
    (h : NeverMatters base increments) : Bounded base increments := by
  unfold InRange at hbase
  rcases h with ⟨hnonneg, -, hsum, htotal⟩ | ⟨hne, htail, hfirst, htotal⟩
  · rw [← high_eq_low.mpr hnonneg] at hsum htotal
    refine ⟨⟨fun part hpart => ?_, hsum⟩, fun run hrun => ?_, htotal⟩
    · have hlow := low_nonneg fun d hd => hnonneg d (hpart.subset hd)
      omega
    · have hlow := low_nonneg fun d hd => hnonneg d (hrun.subset hd)
      omega
  · obtain ⟨first, rest, rfl⟩ := List.exists_cons_of_ne_nil hne
    have hrestHigh : high rest = 0 := high_eq_zero.mpr htail
    have hfirstHigh : base + max first.toInt 0 ≤ 0 := by simpa using hfirst
    have hfirstRange := inRange_toInt first
    unfold InRange at hfirstRange
    rw [low_cons] at htotal
    -- A part without the first increment, or a prefix.
    have htailPart : ∀ part, part <:+: rest → low rest ≤ low part := by
      rintro part ⟨before, after, rfl⟩
      have hbefore : low before ≤ 0 := low_nonpos fun d hd => htail d (by simp [hd])
      have hafter : low after ≤ 0 := low_nonpos fun d hd => htail d (by simp [hd])
      rw [low_append, low_append]
      omega
    have hinit : ∀ run, run <+: first :: rest → -2 ^ 63 ≤ base + low run ∧ -2 ^ 63 ≤ low run := by
      intro run hrun
      cases run with
      | nil =>
        rw [low_nil]
        omega
      | cons d run =>
        obtain ⟨rfl, hafter⟩ := List.cons_prefix_cons.mp hrun
        have hle := htailPart run hafter.isInfix
        rw [low_cons]
        omega
    refine ⟨⟨fun part hpart => ?_, ?_⟩, fun run hrun => (hinit run hrun).1, ?_⟩
    · rcases List.infix_cons_iff.mp hpart with hrun | hrest
      · exact (hinit part hrun).2
      · have hle := htailPart part hrest
        omega
    · rw [high_cons]
      omega
    · rw [high_cons]
      omega

theorem Step.leaves_ne_nil (step : Step) : step.leaves ≠ [] := by
  cases step with
  | merge run => exact Grouping.leaves_ne_nil run
  | mergeBatch first rest =>
    show Grouping.leavesList (first :: rest) ≠ []
    exact List.append_ne_nil_of_left_ne_nil (Grouping.leaves_ne_nil first) _

/-- Between the bounds there is one value only. -/
theorem NeverMatters.squeeze {part rest : List Int64} (hne : part ≠ [])
    (h : NeverMatters base (part ++ rest)) :
    max (base + high part) 0 + high rest = max (base + low (part ++ rest)) 0 := by
  obtain ⟨first, part, rfl⟩ := List.exists_cons_of_ne_nil hne
  have htake : ((first :: part) ++ rest).take 1 = [first] := rfl
  unfold NeverMatters at h
  rw [htake] at h
  have hfirstHigh : high [first] = max first.toInt 0 := by simp
  have hfirstLow : low [first] = first.toInt := by simp
  rw [low_append, low_cons, high_cons]
  rcases h with ⟨hnonneg, hfirst, -, -⟩ | ⟨-, htail, hfirst, -⟩
  · have hpart : high part = low part := high_eq_low.mpr fun d hd => hnonneg d (by simp [hd])
    have hrest : high rest = low rest := high_eq_low.mpr fun d hd => hnonneg d (by simp [hd])
    have hd : 0 ≤ first.toInt := hnonneg first (by simp)
    have hpartNonneg := high_nonneg part
    have hrestNonneg := high_nonneg rest
    omega
  · have hpart : ∀ d ∈ part, d.toInt ≤ 0 := fun d hd => htail d (by simp [hd])
    have hrest : ∀ d ∈ rest, d.toInt ≤ 0 := fun d hd => htail d (by simp [hd])
    rw [high_eq_zero.mpr hpart, high_eq_zero.mpr hrest]
    have hpartLow := low_nonpos hpart
    have hrestLow := low_nonpos hrest
    omega

theorem NeverMatters.groupingsAgree {stored : Option Int64}
    (h : NeverMatters (count (stored.map word)) increments)
    (hbase : InRange (count (stored.map word))) : GroupingsAgree stored increments := by
  have hbounded := h.bounded hbase
  have hwords : ∀ part ∈ increments.map (fun d => ([d], word d)), Between part.1 part.2 := by
    intro part hpart
    obtain ⟨d, -, rfl⟩ := List.mem_map.mp hpart
    exact leaf_between d
  have hruns : (increments.map fun d => ([d], word d)).flatMap fst = increments := by
    rw [List.flatMap_map]
    exact List.flatMap_singleton' increments
  have hvalues : (increments.map fun d => ([d], word d)).map snd = increments.map word := by
    rw [List.map_map]
    rfl
  -- One batch over all increments.
  have hbatch : ∃ value, mergeBatch (stored.map word) (increments.map word) = .ok (encode value) ∧
      InRange value ∧ value = max (count (stored.map word) + low increments) 0 := by
    obtain ⟨value, hmerge, hrange, hlow, hhigh⟩ :=
      mergeBatch_bounds (increments.map fun d => ([d], word d)) (stored.map word)
        (by rw [hruns]; exact hbounded.room hbase) hwords
    rw [hruns] at hlow hhigh
    rw [hvalues] at hmerge
    refine ⟨value, hmerge, hrange, le_antisymm ?_ hlow⟩
    by_cases hne : increments = []
    · rw [hne] at hhigh ⊢
      exact hhigh
    · have hwhole : NeverMatters (count (stored.map word)) (increments ++ []) := by
        rwa [append_nil]
      have hsqueeze := hwhole.squeeze hne
      rw [append_nil, high_nil] at hsqueeze
      omega
  obtain ⟨value, hmerge, hrange, hvalue⟩ := hbatch
  refine ⟨value, ?_, ?_⟩
  · rw [hmerge]
    exact congrArg Except.ok (decode_encode hrange)
  · intro steps hsteps
    cases steps with
    | nil =>
      have hnil : increments = [] := hsteps.symm
      rw [hnil] at h hvalue
      have hfirst : 0 ≤ count (stored.map word) + 0 := by
        rcases h with ⟨-, hfirst, -, -⟩ | ⟨hne, -⟩
        · exact hfirst
        · exact absurd rfl hne
      show Except.ok (count (stored.map word)) = _
      rw [hvalue, low_nil, max_eq_left hfirst, add_zero]
    | cons step steps =>
      rw [leavesOf_cons] at hsteps
      subst hsteps
      have hsqueeze := h.squeeze step.leaves_ne_nil
      have hroom := hbounded.room hbase
      have hupper := hroom.upper
      rw [high_append] at hupper
      have hrestLt := (hbounded.admissible.part (List.suffix_append _ _).isInfix).2
      obtain ⟨next, happly, hnextRange, hnextLow, hnextHigh⟩ := step.apply_bounds (stored.map word)
        (hbounded.admissible.part (prefix_append _ _).isInfix) hroom.init
      -- The value may be clamped, so the upper bound is not that of the sum.
      have hnext : Room (count (stored.map word) + low step.leaves)
          (max (count (stored.map word) + high step.leaves) 0) next (leavesOf steps) := by
        have hle := low_le_high step.leaves
        exact ⟨by omega, hnextHigh, hnextRange, (hroom.next _ le_rfl (by omega)).lower, by omega⟩
      obtain ⟨result, hresolve, hresultRange, hresultLow, hresultHigh⟩ := resolve_bounds steps
        (by omega) (hbounded.admissible.part (List.suffix_append _ _).isInfix) hnext
      have heq : result = value := by
        rw [low_append] at hvalue hsqueeze
        omega
      show (step.apply (stored.map word) >>= fun value => resolve (some value) steps).map count = _
      rw [happly]
      show (resolve (some (encode next)) steps).map count = _
      rw [hresolve]
      show Except.ok (count (some (encode result))) = _
      rw [count_some_encode hresultRange, heq]

/-! ## §7. Groupings that disagree otherwise. -/

theorem foldlM_words : ∀ {total sum : Int}, InRange total →
    (increments.map word).foldlM (fun total operand => addI64 total (decode operand)) total =
      .ok sum → sum = total + low increments ∧ InRange sum := by
  induction increments with
  | nil =>
    intro total sum hrange h
    cases h
    exact ⟨by simp, hrange⟩
  | cons d increments ih =>
    intro total sum hrange h
    obtain ⟨next, hadd, hfold⟩ := except_bind_eq_ok.mp h
    obtain ⟨rfl, hnext⟩ := addI64_eq_ok.mp hadd
    rw [word, decode_encode (inRange_toInt d)] at hnext hfold
    obtain ⟨rfl, hsum⟩ := ih hnext hfold
    refine ⟨?_, hsum⟩
    rw [low_cons]
    omega

variable {stored : Option Bytes}

/-- A batch of increments that returns leaves the clamped sum. -/
theorem mergeBatch_words {bytes : Bytes}
    (hrange : InRange (count stored)) (h : mergeBatch stored (increments.map word) = .ok bytes) :
    bytes = encode (max (count stored + low increments) 0) ∧
      InRange (count stored + low increments) := by
  obtain ⟨sum, hfold, hpure⟩ := except_bind_eq_ok.mp h
  obtain ⟨rfl, hsum⟩ := foldlM_words hrange hfold
  cases hpure
  exact ⟨rfl, hsum⟩

/-- Every increment merged on its own first. -/
def clampedSteps (increments : List Int64) : List Step :=
  increments.map fun d => .merge (.batch .merges (.leaf d) [])

theorem leavesOf_clampedSteps (increments : List Int64) :
    leavesOf (clampedSteps increments) = increments := by
  induction increments with
  | nil => rfl
  | cons d increments ih =>
    show leavesOf (.merge (.batch .merges (.leaf d) []) :: clampedSteps increments) = _
    rw [leavesOf_cons, ih]
    rfl

theorem merge_eq_ok {bytes : Bytes} (h : InRange value) :
    merge stored (encode value) = .ok bytes ↔
      bytes = encode (max (count stored + value) 0) ∧ InRange (count stored + value) := by
  unfold merge
  rw [decode_encode h]
  constructor
  · intro hmerge
    obtain ⟨sum, hadd, hpure⟩ := except_bind_eq_ok.mp hmerge
    obtain ⟨rfl, hsum⟩ := addI64_eq_ok.mp hadd
    cases hpure
    exact ⟨rfl, hsum⟩
  · rintro ⟨rfl, hsum⟩
    exact except_bind_eq_ok.mpr ⟨_, addI64_eq_ok.mpr ⟨rfl, hsum⟩, rfl⟩

theorem inRange_max (h : InRange value) : InRange (max value 0) := by
  unfold InRange at h ⊢
  omega

theorem Run.evalList_leaf (increments : List Int64) :
    Run.evalList (increments.map fun d => .leaf d) = .ok (increments.map word) := by
  induction increments with
  | nil => rfl
  | cons d increments ih =>
    show (Run.evalList (increments.map fun d => .leaf d) >>= fun values =>
      Except.ok (word d :: values)) = _
    rw [ih]
    rfl

theorem Run.eval_batch_leaf (call : PartialCall) (first : Int64) (rest : List Int64) :
    Run.eval (.batch call (.leaf first) (rest.map fun d => .leaf d)) =
      call.run (word first) (rest.map word) := by
  show (Run.evalList (rest.map fun d => .leaf d) >>= fun values =>
    call.run (word first) values) = _
  rw [Run.evalList_leaf]
  rfl

theorem merge_none_word (d : Int64) : merge none (word d) = .ok (encode (max d.toInt 0)) := by
  have hzero : count none + d.toInt = d.toInt := zero_add _
  rw [word, merge_eq_ok (inRange_toInt d), hzero]
  exact ⟨rfl, inRange_toInt d⟩

theorem apply_clamped (d : Int64) {bytes : Bytes}
    (h : (Step.merge (.batch .merges (.leaf d) [])).apply stored = .ok bytes) :
    bytes = encode (max (count stored + max d.toInt 0) 0) ∧
      InRange (count stored + max d.toInt 0) := by
  obtain ⟨value, hvalue, hmerge⟩ := except_bind_eq_ok.mp h
  have heval : Run.eval (.batch .merges (.leaf d) []) = merge none (word d) :=
    Run.eval_batch_leaf .merges d []
  rw [heval, merge_none_word] at hvalue
  rw [← Except.ok.inj hvalue] at hmerge
  exact (merge_eq_ok (inRange_max (inRange_toInt d))).mp hmerge

/-- Onto a value that is not negative the clamped increments add up. -/
theorem resolve_clampedSteps (increments : List Int64) : ∀ {value : Int} {result : Option Bytes},
    0 ≤ value → InRange value →
    resolve (some (encode value)) (clampedSteps increments) = .ok result →
    count result = value + high increments ∧ InRange (value + high increments) := by
  induction increments with
  | nil =>
    intro value result _ hrange h
    cases h
    rw [high_nil, add_zero, count_some_encode hrange]
    exact ⟨rfl, hrange⟩
  | cons d increments ih =>
    intro value result hnonneg hrange h
    obtain ⟨bytes, happly, hrest⟩ := except_bind_eq_ok.mp h
    obtain ⟨rfl, hnext⟩ := apply_clamped d happly
    rw [count_some_encode hrange] at hnext hrest
    have hmax : max (value + max d.toInt 0) 0 = value + max d.toInt 0 := by omega
    rw [hmax] at hrest
    obtain ⟨hcount, hsum⟩ := ih (by omega) hnext hrest
    rw [high_cons, ← add_assoc]
    exact ⟨hcount, hsum⟩

theorem count_word (stored : Option Int64) : InRange (count (stored.map word)) := by
  cases stored with
  | none => decide
  | some value =>
    show InRange (count (some (word value)))
    rw [word, count_some_encode (inRange_toInt value)]
    exact inRange_toInt value

theorem GroupingsAgree.neverMatters {stored : Option Int64} (h : GroupingsAgree stored increments) :
    NeverMatters (count (stored.map word)) increments := by
  obtain ⟨value, hbatch, hgroupings⟩ := h
  have hbase := count_word stored
  -- One batch over all of them.
  obtain ⟨bytes, hmerge, hdecode⟩ := except_map_ok hbatch
  obtain ⟨rfl, htotal⟩ := mergeBatch_words hbase hmerge
  rw [decode_encode (inRange_max htotal)] at hdecode
  cases increments with
  | nil =>
    have hnone : count (stored.map word) = value := Except.ok.inj (hgroupings [] rfl)
    rw [low_nil] at hdecode
    exact .inl ⟨(fun d hd => nomatch hd), by simp; omega, by decide, by simpa using hbase.2⟩
  | cons first rest =>
    -- Every increment clamped on its own, then merged one after the other.
    obtain ⟨result, hresolve, hcount⟩ :=
      except_map_ok (hgroupings _ (leavesOf_clampedSteps (first :: rest)))
    obtain ⟨bytes, happly, hrest⟩ := except_bind_eq_ok.mp hresolve
    obtain ⟨rfl, hnext⟩ := apply_clamped first happly
    obtain ⟨hsum, -⟩ :=
      resolve_clampedSteps rest (le_max_right _ _) (inRange_max hnext) hrest
    -- All increments in one batch, which then meets the base.
    have halone : InRange (low (first :: rest)) := by
      have hleaves :
          leavesOf [.merge (.batch .batch (.leaf first) (rest.map fun d => .leaf d))] =
            first :: rest := by
        rw [leavesOf_cons]
        simp only [Step.leaves, Grouping.leaves, Grouping.leavesList_leaf]
        exact append_nil _
      obtain ⟨_, hsteps, -⟩ := except_map_ok (hgroupings _ hleaves)
      obtain ⟨_, hstep, -⟩ := except_bind_eq_ok.mp hsteps
      obtain ⟨bytes, heval, -⟩ := except_bind_eq_ok.mp hstep
      rw [Run.eval_batch_leaf] at heval
      have hfresh : mergeBatch none ((first :: rest).map word) = .ok bytes := heval
      have hrange := (mergeBatch_words (by decide : InRange (count none)) hfresh).2
      have hzero : count none + low (first :: rest) = low (first :: rest) := zero_add _
      rwa [hzero] at hrange
    have hle := low_le_high rest
    have hpos := high_nonneg rest
    rw [low_cons] at hdecode
    by_cases hclamp : count (stored.map word) + low (first :: rest) ≤ 0
    · rw [low_cons] at hclamp
      have hzero : high rest = 0 := by omega
      exact .inr ⟨List.cons_ne_nil _ _, high_eq_zero.mp hzero, by simp; omega, htotal.1⟩
    · rw [low_cons] at hclamp
      have hhigh : high (first :: rest) = low (first :: rest) := by
        rw [high_cons, low_cons]
        omega
      exact .inl ⟨high_eq_low.mp hhigh, by simp; omega, halone.2, htotal.2⟩

/-- **Every grouping of the increments agrees with one batch** exactly when clamping
never matters. -/
theorem groupings_agree_iff (stored : Option Int64) (increments : List Int64) :
    GroupingsAgree stored increments ↔ NeverMatters (count (stored.map word)) increments :=
  ⟨fun h => h.neverMatters, fun h => h.groupingsAgree (count_word stored)⟩

/-- One decrement of a stored ten.  A batch counts five; merged without the base first,
the decrement is clamped to zero and the ten remains. -/
theorem groupings_disagree_ten :
    (mergeBatch (some (word 10)) [word (-5)]).map decode = .ok 5 ∧
      leavesOf [.merge (.batch .batch (.leaf (-5)) [])] = [-5] ∧
      (resolve (some (word 10)) [.merge (.batch .batch (.leaf (-5)) [])]).map count = .ok 10 := by
  refine ⟨?_, ?_, ?_⟩ <;> decide +kernel

end HelixDb.MergeOperator
