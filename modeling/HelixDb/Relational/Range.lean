/-
  HelixDb.Relational.Range

  **INTEGER RANGES**: `range(start, end, step)` as a list and as the stream that
  UNWIND reads.

  The generator steps with checked 64-bit addition and ends where the next value
  passes `end` or does not exist.  The list form computes its length on its own,
  in 128 bits, and asserts that the generator agrees.

    • `range_lists_values` — both forms yield `start + k * step` for every `k`
      that does not pass the end, as many as the count says.
-/
import HelixDb.Relational.Evaluation
import HelixDb.Lib.Checked

namespace HelixDb.Relational

open HelixDb.Lib

/-! ## §1. The generator. -/

/-- `NonZeroI64`. -/
abbrev NonZeroI64 := { step : Int64 // step ≠ 0 }

/-- A validated integer generator. -/
structure IntegerRange where
  next : Option Int64
  stop : Int64
  step : NonZeroI64

namespace IntegerRange

/-- `range` with its arguments checked. -/
def new : List Value → Result IntegerRange
  | .integer start :: .integer stop :: rest => do
    let step ← match rest with
      | [] => pure 1
      | [.integer step] => pure step
      | _ => .error (.runtime "argument_error" "invalid_argument_type"
          "range requires an integer step")
    if h : step = 0 then
      .error (.runtime "argument_error" "number_out_of_range" "range step cannot be zero")
    else pure ⟨some start, stop, step, h⟩
  | _ => .error (.runtime "argument_error" "invalid_argument_type"
      "range requires integer endpoints")

/-- `checked_add`. -/
def checkedAdd (a b : Int64) : Option Int64 := (signed 64 (a.toInt + b.toInt)).map Int64.ofInt

/-- Whether a candidate passes the end in the direction of the step. -/
def passes (range : IntegerRange) (value : Int64) : Bool :=
  range.step.1 > 0 && value > range.stop || range.step.1 < 0 && value < range.stop

/-- `Iterator::next`. -/
def advance (range : IntegerRange) : Option Value × IntegerRange :=
  match range.next with
  | none => (none, range)
  | some value =>
    if range.passes value then (none, { range with next := none })
    else (some (.integer value), { range with next := checkedAdd value range.step.1 })

end IntegerRange

/-! ## §2. The list. -/

/-- The number of values, computed in 128 bits. -/
def rangeCount (start : Int64) (range : IntegerRange) : Option Int := do
  let step := range.step.1.toInt
  let difference ← signed 128 (range.stop.toInt - start.toInt)
  let distance ← signed 128 (difference * step.sign)
  if distance < 0 then pure 0
  else do
    let magnitude ← signed 128 (Int.natAbs step)
    signed 128 (distance / magnitude + 1)

/-- The loop over the generator: no result where an assertion on the count fails. -/
def collectRange : Nat → IntegerRange → Option (List Value)
  | count, range =>
    match range.advance, count with
    | (none, _), 0 => some []
    | (none, _), _ + 1 => none
    | (some _, _), 0 => none
    | (some value, range), count + 1 => do
      let values ← collectRange count range
      pure (value :: values)

/-- `F::Range` of arguments of which the first is not null; no result is a failed assertion or an
overflow.  The memory admission is not modelled. -/
def rangeFunction (maxCollectionItems : UInt64) (args : List Value) : Option (Result Value) :=
  match IntegerRange.new args with
  | .error error => some (.error error)
  | .ok range => do
    let start ← range.next
    let count ← rangeCount start range
    if count > maxCollectionItems.toNat then
      pure (.error (.runtime "resource_limit" "collection_limit"
        "range exceeds the collection budget"))
    else do
      let count ← unsigned 64 count.toNat
      let values ← collectRange count range
      pure (.ok (.list values))

/-! ## §3. UNWIND. -/

/-- What `UNWIND` draws from. -/
inductive UnwindSource where
  | values (values : List Value)
  | range (range : IntegerRange)

/-- The next value and what is left. -/
def UnwindSource.advance : UnwindSource → Option Value × UnwindSource
  | .values [] => (none, .values [])
  | .values (value :: rest) => (some value, .values rest)
  | .range stream => (stream.advance.1, .range stream.advance.2)

/-- What unwinding a value reads. -/
def UnwindSource.ofValue : Value → UnwindSource
  | .null => .values []
  | .list members => .values members
  | value => .values [value]

/-- `unwind`: a range streams. -/
def unwind (context : Context) (group : Option (List Row)) (row : Row) :
    Expression → Result UnwindSource
  | .function .range arguments => do
    let values ← evalAll context group row arguments
    match values with
    | .null :: _ => pure (.values [])
    | values => do
      let range ← IntegerRange.new values
      pure (.range range)
  | expression => do
    let value ← eval context group row expression
    pure (.ofValue value)

/-- The values an iterator yields before it ends. -/
inductive UnwindSource.Yields : UnwindSource → List Value → Prop where
  | nil {source : UnwindSource} (h : source.advance.1 = none) : Yields source []
  | cons {source : UnwindSource} {value : Value} {values : List Value}
      (h : source.advance.1 = some value) (htail : Yields source.advance.2 values) :
      Yields source (value :: values)

/-! ## §4. Both forms yield the same values. -/

section Values

variable {start stop : Int64} {step : NonZeroI64} {a : Int}

/-- The candidate `a`, unless it does not fit. -/
def candidate (a : Int) : Option Int64 := (signed 64 a).map Int64.ofInt

/-- Passing the end, over the integers. -/
def Past (stop : Int64) (step : NonZeroI64) (a : Int) : Prop :=
  0 < step.1.toInt ∧ stop.toInt < a ∨ step.1.toInt < 0 ∧ a < stop.toInt

/-- On the side of the 64-bit range that the step moves away from. -/
def Behind (step : NonZeroI64) (a : Int) : Prop :=
  (0 < step.1.toInt → -2 ^ 63 ≤ a) ∧ (step.1.toInt < 0 → a < 2 ^ 63)

/-- The first `count` values from `a` on. -/
def rangeValues (step : NonZeroI64) (a : Int) (count : Nat) : List Value :=
  (List.range count).map fun k : Nat => .integer (Int64.ofInt (a + k * step.1.toInt))

theorem candidate_toInt (value : Int64) : candidate value.toInt = some value := by
  rw [candidate, signed_of_bounds value.le_toInt value.toInt_lt, Option.map_some, Int64.ofInt_toInt]

theorem step_toInt_ne (step : NonZeroI64) : step.1.toInt ≠ 0 := by
  intro h
  exact step.2 (Int64.toInt_inj.mp h)

theorem passes_iff {range : IntegerRange} {value : Int64} :
    range.passes value = true ↔ Past range.stop range.step value.toInt := by
  simp only [IntegerRange.passes, Past, Bool.or_eq_true, Bool.and_eq_true, decide_eq_true_eq, Int64.lt_iff_toInt_lt, Int64.toInt_zero]

/-- A candidate that passes the end stops the generator, also one that does not fit. -/
theorem advance_of_past (h : Past stop step a) :
    (⟨candidate a, stop, step⟩ : IntegerRange).advance = (none, ⟨none, stop, step⟩) := by
  unfold candidate signed
  split_ifs with hfits
  · have hpasses : (⟨some (Int64.ofInt a), stop, step⟩ : IntegerRange).passes (Int64.ofInt a) := by
      rwa [passes_iff, Int64.toInt_ofInt_of_le hfits.1 hfits.2]
    exact if_pos hpasses
  · rfl

/-- A candidate that does not pass the end fits, and is yielded. -/
theorem advance_of_not_past (hbehind : Behind step a) (h : ¬Past stop step a) :
    (Int64.ofInt a).toInt = a ∧ (⟨candidate a, stop, step⟩ : IntegerRange).advance =
      (some (.integer (Int64.ofInt a)), ⟨candidate (a + step.1.toInt), stop, step⟩) := by
  have hne := step_toInt_ne step
  have hlow := stop.le_toInt
  have hhigh := stop.toInt_lt
  have hfits : -2 ^ 63 ≤ a ∧ a < 2 ^ 63 := by
    unfold Past at h
    unfold Behind at hbehind
    omega
  have hvalue := Int64.toInt_ofInt_of_le hfits.1 hfits.2
  have hnot : ¬(⟨some (Int64.ofInt a), stop, step⟩ : IntegerRange).passes (Int64.ofInt a) := by
    rwa [passes_iff, hvalue]
  have hadvance : (⟨some (Int64.ofInt a), stop, step⟩ : IntegerRange).advance =
      (some (.integer (Int64.ofInt a)),
        ⟨candidate ((Int64.ofInt a).toInt + step.1.toInt), stop, step⟩) := if_neg hnot
  rw [hvalue] at hadvance
  rw [candidate, signed_of_bounds hfits.1 hfits.2]
  exact ⟨hvalue, hadvance⟩

theorem Behind.add (hbehind : Behind step a) : Behind step (a + step.1.toInt) := by
  unfold Behind at hbehind ⊢
  omega

theorem rangeValues_succ (count : Nat) : rangeValues step a (count + 1) =
    .integer (Int64.ofInt a) :: rangeValues step (a + step.1.toInt) count := by
  unfold rangeValues
  rw [List.range_succ_eq_map, List.map_cons, List.map_map]
  congr 1
  · simp
  · refine List.map_congr_left fun k _ => ?_
    simp only [Function.comp_apply, Nat.succ_eq_add_one, Nat.cast_add, Nat.cast_one]
    congr 2
    ring

/-- From a candidate on: the loop collects, and the stream yields, as many values as do not pass
the end. -/
theorem collectRange_candidate (count : Nat) : ∀ {a : Int}, Behind step a →
    (∀ k : Nat, k < count ↔ ¬Past stop step (a + k * step.1.toInt)) →
    collectRange count ⟨candidate a, stop, step⟩ = some (rangeValues step a count) ∧
      (UnwindSource.range ⟨candidate a, stop, step⟩).Yields (rangeValues step a count) ∧
      ∀ k < count, (Int64.ofInt (a + k * step.1.toInt)).toInt = a + k * step.1.toInt := by
  induction count with
  | zero =>
    intro a _ hcount
    have hpast : Past stop step a := by
      have hzero := hcount 0
      simp only [Nat.cast_zero, zero_mul, add_zero, lt_irrefl, false_iff, not_not] at hzero
      exact hzero
    have hadvance := advance_of_past hpast
    refine ⟨?_, .nil ?_, fun k hk => absurd hk (Nat.not_lt_zero k)⟩
    · unfold collectRange
      rw [hadvance]
      rfl
    · rw [UnwindSource.advance, hadvance]
  | succ count ih =>
    intro a hbehind hcount
    have hfirst : ¬Past stop step a := by
      have hzero := (hcount 0).mp (Nat.succ_pos count)
      rwa [Nat.cast_zero, zero_mul, add_zero] at hzero
    have hshift : ∀ k : Nat,
        a + step.1.toInt + k * step.1.toInt = a + (k + 1 : Nat) * step.1.toInt := by
      intro k
      push_cast
      ring
    obtain ⟨hvalue, hadvance⟩ := advance_of_not_past hbehind hfirst
    obtain ⟨hcollect, hyields, hexact⟩ := ih hbehind.add fun k => by
      rw [hshift, ← hcount, Nat.succ_lt_succ_iff]
    rw [rangeValues_succ]
    refine ⟨?_, .cons ?_ ?_, fun k hk => ?_⟩
    · unfold collectRange
      rw [hadvance]
      show (collectRange count _ >>= _) = _
      rw [hcollect]
      rfl
    · rw [UnwindSource.advance, hadvance]
    · rwa [UnwindSource.advance, hadvance]
    · cases k with
      | zero => simpa using hvalue
      | succ k =>
        rw [← hshift]
        exact hexact k (Nat.lt_of_succ_lt_succ hk)

/-- Passing the end is a comparison of distances from the start. -/
theorem past_iff (k : Nat) : Past stop step (start.toInt + k * step.1.toInt) ↔
    (stop.toInt - start.toInt) * step.1.toInt.sign < k * (step.1.toInt.natAbs : Int) := by
  unfold Past
  obtain hpos | hneg := lt_or_gt_of_ne (step_toInt_ne step).symm
  · rw [Int.sign_eq_one_of_pos hpos, Int.natAbs_of_nonneg hpos.le]
    omega
  · rw [Int.sign_eq_neg_one_of_neg hneg, Int.ofNat_natAbs_of_nonpos hneg.le, mul_neg, mul_neg]
    omega

/-- The count is the number of values that do not pass the end. -/
theorem rangeCount_eq (start stop : Int64) (step : NonZeroI64) :
    ∃ count : Nat, rangeCount start ⟨some start, stop, step⟩ = some (count : Int) ∧
      ∀ k : Nat, k < count ↔ ¬Past stop step (start.toInt + k * step.1.toInt) := by
  have hmagnitude : 0 < step.1.toInt.natAbs := Int.natAbs_pos.mpr (step_toInt_ne step)
  have hstart := start.le_toInt
  have hstart' := start.toInt_lt
  have hstop := stop.le_toInt
  have hstop' := stop.toInt_lt
  have hstep := step.1.le_toInt
  have hstep' := step.1.toInt_lt
  simp only [past_iff]
  show ∃ count : Nat, (signed 128 (stop.toInt - start.toInt) >>= fun difference =>
    signed 128 (difference * step.1.toInt.sign) >>= _) = _ ∧ _
  rw [signed_of_bounds (by omega) (by omega), Option.bind_eq_bind, Option.bind_some]
  generalize hdistance : (stop.toInt - start.toInt) * step.1.toInt.sign = distance
  have hbounds : -2 ^ 64 < distance ∧ distance < 2 ^ 64 := by
    obtain hpos | hneg := lt_or_gt_of_ne (step_toInt_ne step).symm
    · rw [Int.sign_eq_one_of_pos hpos] at hdistance
      omega
    · rw [Int.sign_eq_neg_one_of_neg hneg] at hdistance
      omega
  rw [signed_of_bounds (by omega) (by omega), Option.bind_some]
  by_cases hnegative : distance < 0
  · refine ⟨0, if_pos hnegative, fun k => ?_⟩
    have hproduct : 0 ≤ (k : Int) * step.1.toInt.natAbs := by positivity
    omega
  · lift distance to Nat using not_lt.mp hnegative
    refine ⟨distance / step.1.toInt.natAbs + 1, (if_neg hnegative).trans ?_, fun k => ?_⟩
    · have hquotient := Nat.div_le_self distance step.1.toInt.natAbs
      have hquotient' : 0 ≤ (distance : Int) / step.1.toInt.natAbs := by positivity
      show (signed 128 (step.1.toInt.natAbs : Int)).bind _ = _
      rw [signed_of_bounds (by omega) (by omega), Option.bind_some]
      exact signed_of_bounds (by omega) (by omega)
    · rw [Nat.lt_succ_iff, Nat.le_div_iff_mul_le hmagnitude, not_lt]
      exact_mod_cast Iff.rfl

theorem yields_values (values : List Value) : (UnwindSource.values values).Yields values := by
  induction values with
  | nil => exact .nil rfl
  | cons value values ih => exact .cons rfl ih

/-- Both forms of a range yield `start + k * step` for every `k` that does not pass the end:
nothing overflows, no assertion fails, and the count is the length of the list. -/
theorem range_lists_values (start stop : Int64) (step : NonZeroI64) (limit : UInt64)
    (context : Context) (group : Option (List Row)) (row : Row) : ∃ count : Nat,
    rangeCount start ⟨some start, stop, step⟩ = some (count : Int) ∧
    (∀ k : Nat, k < count ↔ ¬Past stop step (start.toInt + k * step.1.toInt)) ∧
    (∀ k < count, (Int64.ofInt (start.toInt + k * step.1.toInt)).toInt =
      start.toInt + k * step.1.toInt) ∧
    (count ≤ limit.toNat →
      rangeFunction limit [.integer start, .integer stop, .integer step.1] =
        some (.ok (.list (rangeValues step start.toInt count)))) ∧
    (UnwindSource.ofValue (.list (rangeValues step start.toInt count))).Yields
      (rangeValues step start.toInt count) ∧
    ∃ source, unwind context group row (.function .range
        [.literal (.integer start), .literal (.integer stop), .literal (.integer step.1)]) =
          .ok source ∧
      source.Yields (rangeValues step start.toInt count) := by
  obtain ⟨count, hcount, hpast⟩ := rangeCount_eq start stop step
  have hbehind : Behind step start.toInt :=
    ⟨fun _ => start.le_toInt, fun _ => start.toInt_lt⟩
  have hnew : IntegerRange.new [.integer start, .integer stop, .integer step.1] =
      .ok ⟨some start, stop, step⟩ := dif_neg step.2
  obtain ⟨hcollect, hyields, hexact⟩ := collectRange_candidate count hbehind hpast
  rw [candidate_toInt] at hcollect hyields
  refine ⟨count, hcount, hpast, hexact, fun hlimit => ?_, yields_values _, _, ?_, hyields⟩
  · have hlength : count < 2 ^ 64 := lt_of_le_of_lt hlimit limit.toNat_lt
    simp only [rangeFunction, hnew, hcount, Option.bind_eq_bind, Option.bind_some,
      Nat.cast_lt, hlimit.not_gt, Int.toNat_natCast, unsigned_of_lt hlength, hcollect]
    rfl
  · show (IntegerRange.new _ >>= _) = _
    rw [hnew]
    rfl

end Values

end HelixDb.Relational
