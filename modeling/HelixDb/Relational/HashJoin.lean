/-
  HelixDb.Relational.HashJoin

  **THE HASH JOIN IS THE NESTED LOOP**, row for row and for every batch width.

  The table buckets node identities by the value of their property, under the
  total order of grouping.  A value that does not equal itself (a null or a NaN
  takes part) is left out on both sides; on what remains grouping and predicate
  equality agree.  The probe emits a batch at a time and keeps its place inside
  a bucket between batches.  A grouping key is limited in depth and size.

    • `Value.isDefinite_of_equals` — equal values hold no null and no NaN;
    • `gather_spec` — one batch;
    • `drain_eq` — all batches together.
-/
import HelixDb.Relational.ValueOrder
import HelixDb.Relational.Match
import HelixDb.Lib.Buckets

namespace HelixDb.Relational

open HelixDb.Lib List

variable {value a : Value}

namespace Value

/-! ## §1. Equality without null and NaN. -/

mutual

/-- Values that are equal in a predicate hold no null and no NaN. -/
theorem isDefinite_of_equals : ∀ {a b : Value}, a.equals b = some true → a.isDefinite = true
  | .list as, b, h => by
    cases b with
    | list bs =>
      rw [equals] at h
      split at h
      next => cases h
      next hlength =>
        exact allDefinite_of_equals (not_not.mp hlength) h
    | _ => simp [equals, isNumber] at h
  | .map as, b, h => by
    cases b with
    | map bs =>
      rw [equals] at h
      split at h
      next => cases h
      next hkeys =>
        have hlength : as.length = bs.length := by
          simpa using congrArg length (not_not.mp hkeys)
        exact allDefiniteEntries_of_equals hlength h
    | _ => simp [equals, isNumber] at h
  | .float bits, b, h => by
    have hnumber : (Value.float bits).numberCmp b = some .eq := by
      cases b <;> simp_all [equals, isNumber]
    unfold numberCmp at hnumber
    rw [isDefinite, isNan]
    cases hbits : HelixDb.Property.CanonicalNumber.fromF64 bits with
    | none => simp [number, hbits] at hnumber
    | some n => rfl
  | .null, b, h => by simp [equals] at h
  | .boolean _, _, _ | .integer _, _, _ | .string _, _, _ | .entity _, _, _ | .path _, _, _ => by
    simp [isDefinite]

theorem allDefinite_of_equals : ∀ {as bs : List Value}, as.length = bs.length →
    equalsAll as bs = some true → allDefinite as = true
  | [], [], _, _ => by rw [allDefinite]
  | a :: as, b :: bs, hlength, h => by
    obtain ⟨hhead, htail⟩ := stepEquals_true h
    rw [allDefinite, isDefinite_of_equals hhead,
      allDefinite_of_equals (Nat.succ.inj hlength) htail]
    rfl

theorem allDefiniteEntries_of_equals : ∀ {as bs : List (String × Value)},
    as.length = bs.length → equalsEntries as bs = some true → allDefiniteEntries as = true
  | [], [], _, _ => by rw [allDefiniteEntries]
  | (_, a) :: as, (_, b) :: bs, hlength, h => by
    obtain ⟨hhead, htail⟩ := stepEquals_true h
    rw [allDefiniteEntries, isDefinite_of_equals hhead,
      allDefiniteEntries_of_equals (Nat.succ.inj hlength) htail]
    rfl

end

/-- A value equals itself when it holds no null and no NaN. -/
theorem equals_self_iff : a.equals a = some true ↔ a.isDefinite = true :=
  ⟨isDefinite_of_equals, fun h => equals_of_totalCmp h Std.ReflCmp.compare_self⟩

/-- **Grouping against predicate equality**: they agree on values that equal
themselves, and nothing else is equal to anything. -/
theorem equals_iff_grouped {a b : Value} :
    a.equals b = some true ↔
      a.equals a = some true ∧ b.equals b = some true ∧ b.totalCmp a = .eq := by
  rw [equals_self_iff, equals_self_iff]
  constructor
  · intro h
    have hswap : b.equals a = some true := by rwa [equals_comm]
    exact ⟨isDefinite_of_equals h, isDefinite_of_equals hswap, totalCmp_eq_of_equals hswap⟩
  · rintro ⟨ha, _, h⟩
    exact equals_of_totalCmp ha (Std.OrientedCmp.eq_symm h)

/-! ## §2. Grouping keys. -/

/-- The deepest value a key may be. -/
def maxExpressionDepth : Nat := 48

/-- The most values a key may hold. -/
def maxKeyItems : Nat := 200000

mutual

/-- `check_shape`: what is left of the item budget, unless it or the depth runs
out. -/
def checkShape (depth remaining : Nat) : Value → Option Nat
  | .list values =>
    if depth < maxExpressionDepth ∧ remaining ≠ 0 then
      checkShapeAll (depth + 1) (remaining - 1) values
    else none
  | .map entries =>
    if depth < maxExpressionDepth ∧ remaining ≠ 0 then
      checkShapeEntries (depth + 1) (remaining - 1) entries
    else none
  | .null | .boolean _ | .integer _ | .float _ | .string _ | .entity _ | .path _ =>
    if depth < maxExpressionDepth ∧ remaining ≠ 0 then some (remaining - 1) else none

/-- The elements of a list. -/
def checkShapeAll (depth remaining : Nat) : List Value → Option Nat
  | [] => some remaining
  | value :: values => (checkShape depth remaining value).bind fun remaining =>
    checkShapeAll depth remaining values

/-- The entries of a map. -/
def checkShapeEntries (depth remaining : Nat) : List (String × Value) → Option Nat
  | [] => some remaining
  | (_, value) :: entries => (checkShape depth remaining value).bind fun remaining =>
    checkShapeEntries depth remaining entries

end

/-- A value that may be a grouping key. -/
def withinKeyLimits (value : Value) : Bool := (checkShape 0 maxKeyItems value).isSome

end Value

/-- `GroupingKey::new`. -/
def groupingKey (value : Value) : Result Value :=
  if value.withinKeyLimits then .ok value
  else .error (.runtime "resource_limit" "value_depth" "value exceeds structural limits")

/-! ## §3. The table. -/

/-- The nodes by the value of their key. -/
abbrev HashJoinTable := List (Value × List UInt64)

/-- One node of the build side. -/
def buildNode (graph : Graph) (property : String) (table : HashJoinTable) (id : UInt64) :
    Result HashJoinTable := do
  let value ← graph.property (.node id) property
  if value.equals value = some true then do
    let key ← groupingKey value
    pure (pushBucket Value.totalCmp key id table)
  else pure table

/-- `build_batches`. -/
def buildBatches (graph : Graph) (property : String) (batches : List (List UInt64)) :
    Result HashJoinTable :=
  batches.foldlM (fun table ids => ids.foldlM (buildNode graph property) table) []

/-! ## §4. The probe. -/

/-- What a probe reads: `property` of the entity in slot `probe`; it binds `slot`. -/
structure HashProbe where
  graph : Graph
  table : HashJoinTable
  slot : Slot
  probe : Slot
  property : String

/-- `ProbeCursor`: the rows from the current one on, how many identities of its
bucket were emitted, and an error to report after the rows before it. -/
structure ProbeCursor where
  rows : List Row
  duplicate : Nat
  pendingError : Option QueryError

/-- What the loop of one batch leaves. -/
structure Gathered where
  rows : List Row
  duplicate : Nat
  output : List Row
  error : Option QueryError

variable {ids : List UInt64} {rows output : List Row}

namespace HashProbe

variable (join : HashProbe)

/-- The bucket a row probes, if any. -/
def rowBucket (row : Row) : Result (Option (List UInt64)) :=
  match row join.probe with
  | .entity entity => do
    let value ← join.graph.property entity join.property
    if value.equals value = some true then do
      let key ← groupingKey value
      pure (bucket Value.totalCmp key join.table)
    else pure none
  | _ => .ok none

/-- The loop of `next_batch`. -/
def gather (width : Nat) : List Row → Nat → List Row → Gathered
  | [], duplicate, output => { rows := [], duplicate, output, error := none }
  | row :: rows, duplicate, output =>
    if output.length < width then
      match join.rowBucket row with
      | .error error => { rows := row :: rows, duplicate, output, error := some error }
      | .ok none => gather width rows duplicate output
      | .ok (some ids) =>
        let count := min (ids.length - duplicate) (width - output.length)
        let output := output ++ ((ids.drop duplicate).take count).map (row.bindNode join.slot)
        if duplicate + count = ids.length then gather width rows 0 output
        -- the batch is full in the middle of a bucket
        else { rows := row :: rows, duplicate := duplicate + count, output, error := none }
    else { rows := row :: rows, duplicate, output, error := none }

/-- `next_batch`: a queued failure needs no remaining rows. -/
def nextBatch (width : Nat) (cursor : ProbeCursor) : Result (Option (List Row)) × ProbeCursor :=
  match cursor.pendingError with
  | some error => (.error error, { cursor with pendingError := none })
  | none =>
    let gathered := join.gather width cursor.rows cursor.duplicate []
    let next : ProbeCursor := {
      rows := if gathered.error.isSome then [] else gathered.rows
      duplicate := gathered.duplicate
      pendingError := gathered.error }
    if gathered.output ≠ [] then (.ok (some gathered.output), next)
    else
      match gathered.error with
      | some error => (.error error, { next with pendingError := none })
      | none => (.ok none, next)

/-- `probe`: batches until there is none. -/
def drain (width : Nat) : Nat → ProbeCursor → Option (Result (List Row))
  | 0, _ => none
  | fuel + 1, cursor =>
    match join.nextBatch width cursor with
    | (.error error, _) => some (.error error)
    | (.ok none, _) => some (.ok [])
    | (.ok (some batch), cursor) =>
      (drain width fuel cursor).map fun result => result.map (batch ++ ·)

/-! ## §5. What is left to emit. -/

/-- The rows still to come, or the failure they end in. -/
def remaining : List Row → Nat → Result (List Row)
  | [], _ => .ok []
  | row :: rows, duplicate => do
    let ids ← join.rowBucket row
    let rest ← remaining rows 0
    pure (((ids.getD []).drop duplicate).map (row.bindNode join.slot) ++ rest)

/-- The number of identities in the bucket a row probes. -/
def bucketSize (row : Row) : Nat :=
  match join.rowBucket row with
  | .ok (some ids) => ids.length
  | _ => 0

/-- The matches of the rows. -/
def bucketSizes (rows : List Row) : Nat := (rows.map join.bucketSize).sum

/-- A place inside a bucket is inside the bucket of the current row. -/
def Inside (rows : List Row) (duplicate : Nat) : Prop :=
  duplicate = 0 ∨ ∃ row rest ids, rows = row :: rest ∧ join.rowBucket row = .ok (some ids) ∧
    duplicate < ids.length

/-- What one batch does: it fails where the rest fails, or emits a first part of
the rest and stops when it is full or everything is emitted. -/
structure GatherSpec (width : Nat) (rows : List Row) (duplicate : Nat) (output : List Row)
    (gathered : Gathered) : Prop where
  failed : ∀ error, gathered.error = some error → join.remaining rows duplicate = .error error
  emitted : gathered.error = none → ∃ batch, gathered.output = output ++ batch ∧
    join.remaining rows duplicate =
      (join.remaining gathered.rows gathered.duplicate).map (batch ++ ·) ∧
    join.bucketSizes gathered.rows - gathered.duplicate + batch.length =
      join.bucketSizes rows - duplicate ∧
    join.Inside gathered.rows gathered.duplicate ∧
    (gathered.rows = [] ∨ width ≤ gathered.output.length)

variable {join} {width : Nat}

theorem map_nil_append (result : Result (List Row)) : result.map ([] ++ ·) = result := by
  cases result <;> rfl

/-- A loop that stops where it is. -/
theorem GatherSpec.stop {duplicate : Nat}
    (hinside : join.Inside rows duplicate) (hfull : rows = [] ∨ width ≤ output.length) :
    join.GatherSpec width rows duplicate output { rows, duplicate, output, error := none } where
  failed := fun _ h => nomatch h
  emitted := fun _ => ⟨[], by simp, by rw [map_nil_append], by simp, hinside, hfull⟩

/-- A loop that goes on with the next row after emitting the rest of a bucket. -/
theorem GatherSpec.next {row : Row} {duplicate : Nat} {output emitted : List Row}
    {gathered : Gathered} {ids : Option (List UInt64)} (hids : join.rowBucket row = .ok ids)
    (hemitted : emitted = ((ids.getD []).drop duplicate).map (row.bindNode join.slot))
    (hinside : duplicate ≤ (ids.getD []).length)
    (h : join.GatherSpec width rows 0 (output ++ emitted) gathered) :
    join.GatherSpec width (row :: rows) duplicate output gathered := by
  have hremaining : join.remaining (row :: rows) duplicate =
      (join.remaining rows 0).map (emitted ++ ·) := by
    rw [remaining, hids, hemitted]
    cases join.remaining rows 0 <;> rfl
  have hsize : join.bucketSize row = (ids.getD []).length := by
    unfold bucketSize
    rw [hids]
    cases ids <;> rfl
  refine { failed := ?_, emitted := ?_ }
  · intro error herror
    rw [hremaining, h.failed error herror]
    rfl
  · intro hnone
    obtain ⟨batch, houtput, hrest, hsizes, hin, hfull⟩ := h.emitted hnone
    refine ⟨emitted ++ batch, by rw [houtput, append_assoc], ?_, ?_, hin, hfull⟩
    · rw [hremaining, hrest]
      cases join.remaining gathered.rows gathered.duplicate with
      | error error => rfl
      | ok rest => exact congrArg Except.ok (append_assoc emitted batch rest).symm
    · have hlength : emitted.length = (ids.getD []).length - duplicate := by
        rw [hemitted, length_map, length_drop]
      have hcons : join.bucketSizes (row :: rows) =
          join.bucketSize row + join.bucketSizes rows := by
        rfl
      rw [length_append]
      omega

/-- A loop whose batch is full in the middle of a bucket. -/
theorem GatherSpec.partway {row : Row} {duplicate count : Nat} (hids : join.rowBucket row = .ok (some ids))
    (hcount : count ≤ ids.length - duplicate) (hinside : duplicate + count < ids.length)
    (hfull : width ≤ output.length + count) :
    join.GatherSpec width (row :: rows) duplicate output {
      rows := row :: rows
      duplicate := duplicate + count
      output := output ++ ((ids.drop duplicate).take count).map (row.bindNode join.slot)
      error := none } := by
  have hlength : ((ids.drop duplicate).take count).length = count := by
    rw [length_take, length_drop]
    omega
  have hsize : ids.length ≤ join.bucketSizes (row :: rows) := by
    rw [bucketSizes, map_cons, bucketSize, hids]
    exact Nat.le_add_right _ _
  refine { failed := (fun _ h => nomatch h), emitted := fun _ => ⟨_, rfl, ?_, ?_, ?_, ?_⟩ }
  · rw [remaining, remaining, hids]
    cases join.remaining rows 0 with
    | error error => rfl
    | ok rest =>
      show Except.ok ((ids.drop duplicate).map _ ++ rest) =
        Except.ok (((ids.drop duplicate).take count).map _ ++
          ((ids.drop (duplicate + count)).map _ ++ rest))
      rw [← append_assoc, ← map_append, ← drop_drop, take_append_drop]
  · show join.bucketSizes (row :: rows) - (duplicate + count) + _ = _
    rw [length_map]
    omega
  · exact .inr ⟨row, rows, ids, rfl, hids, hinside⟩
  · right
    show width ≤ (output ++ _).length
    rwa [length_append, length_map, hlength]

/-- **One batch.** -/
theorem gather_spec (rows : List Row) : ∀ {duplicate : Nat} {output : List Row},
    join.Inside rows duplicate →
    join.GatherSpec width rows duplicate output (join.gather width rows duplicate output) := by
  induction rows with
  | nil => exact fun hinside => .stop hinside (.inl rfl)
  | cons row rows ih =>
    intro duplicate output hinside
    unfold gather
    split_ifs with hroom
    · -- the place inside a bucket belongs to this row's bucket
      have hplace : ∀ ids, join.rowBucket row = .ok ids → duplicate ≤ (ids.getD []).length := by
        intro ids hids
        rcases hinside with rfl | ⟨row', rest, ids', hrows, hids', hlt⟩
        · exact Nat.zero_le _
        · cases hrows
          rw [hids] at hids'
          cases hids'
          exact hlt.le
      have hzero : join.rowBucket row = .ok none → duplicate = 0 :=
        fun hids => Nat.le_zero.mp (hplace none hids)
      split
      next error herror =>
        refine { failed := ?_, emitted := fun hnone => nomatch hnone }
        intro error' h
        cases h
        rw [remaining, herror]
        rfl
      next hnone =>
        rw [hzero hnone]
        have hrest : join.GatherSpec width rows 0 (output ++ []) (join.gather width rows 0 output) := by
          rw [append_nil]
          exact ih (.inl rfl)
        exact .next hnone rfl (Nat.zero_le _) hrest
      next ids hids =>
        have hle : duplicate ≤ ids.length := hplace (some ids) hids
        simp only
        split_ifs with hlast
        · have htake : (ids.drop duplicate).take
              (min (ids.length - duplicate) (width - output.length)) = ids.drop duplicate := by
            apply take_of_length_le
            rw [length_drop]
            omega
          rw [htake]
          exact .next hids rfl hle (ih (.inl rfl))
        · exact .partway hids (by omega) (by omega) (by omega)
    · exact .stop hinside (.inr (not_lt.mp hroom))

/-- **All batches together** emit the rest, whatever their width. -/
theorem drain_eq (hwidth : 0 < width) : ∀ (fuel : Nat) {rows : List Row} {duplicate : Nat},
    join.Inside rows duplicate → join.bucketSizes rows - duplicate + 2 ≤ fuel →
    join.drain width fuel { rows, duplicate, pendingError := none } =
      some (join.remaining rows duplicate) := by
  intro fuel
  induction fuel with
  | zero =>
    omega
  | succ fuel ih =>
    intro rows duplicate hinside hfuel
    have hspec : join.GatherSpec width rows duplicate []
        (join.gather width rows duplicate []) := gather_spec rows hinside
    unfold drain nextBatch
    generalize join.gather width rows duplicate [] = gathered at hspec ⊢
    cases herror : gathered.error with
    | some error =>
      rw [hspec.failed error herror]
      by_cases houtput : gathered.output = []
      · simp [houtput, herror]
      · -- the rows before the failure are a batch of their own
        simp only [houtput, herror, ne_eq]
        obtain ⟨fuel, rfl⟩ : ∃ n, fuel = n + 1 := ⟨fuel - 1, by omega⟩
        rfl
    | none =>
      obtain ⟨batch, hbatch, hrest, hsizes, hin, hstop⟩ := hspec.emitted herror
      rw [nil_append] at hbatch
      by_cases houtput : batch = []
      · have hrows : gathered.rows = [] := by
          apply hstop.resolve_right
          rw [hbatch, houtput, length_nil]
          omega
        rw [hrest, hrows]
        simp [hbatch, houtput, herror, remaining, Except.map]
      · have hpos : 0 < batch.length := length_pos_iff.mpr houtput
        simp only [hbatch, houtput, herror, ne_eq, not_false_eq_true, if_true,
          Option.isSome_none, Bool.false_eq_true, if_false]
        rw [ih hin (by omega), hrest]
        rfl

end HashProbe

/-! ## §6. Against the nested loop. -/

section NestedLoop

variable (graph : Graph) (slot probe : Slot) (property probeProperty : String)

/-- The join as a hash join, with the build side in batches. -/
def hashJoin (batches : List (List UInt64)) (rows : List Row) (width fuel : Nat) :
    Option (Result (List Row)) :=
  match buildBatches graph property batches with
  | .error error => some (.error error)
  | .ok table =>
    HashProbe.drain { graph, table, slot, probe, property := probeProperty } width fuel
      { rows, duplicate := 0, pendingError := none }

/-- One outer row against every candidate. -/
def nestedRow (ids : List UInt64) (row : Row) : Result (List Row) :=
  match row probe with
  | .entity entity => do
    let value ← graph.property entity probeProperty
    collectM (fun id => do
      let stored ← graph.property (.node id) property
      pure (if value.equals stored = some true then [row.bindNode slot id] else [])) ids
  | _ => .ok []

/-- Every row against every node. -/
def nestedLoop (ids : List UInt64) (rows : List Row) : Result (List Row) :=
  collectM (nestedRow graph slot probe property probeProperty ids) rows

variable {graph slot probe property probeProperty} {read : UInt64 → Value}

/-- The identities of the build side under their keys. -/
def buildEntries (read : UInt64 → Value) (ids : List UInt64) : List (Value × UInt64) :=
  (ids.filter fun id => (read id).equals (read id) == some true).map fun id => (read id, id)

/-- The table of all nodes. -/
def filledTable (read : UInt64 → Value) (ids : List UInt64) : HashJoinTable :=
  (buildEntries read ids).foldl
    (fun table entry => pushBucket Value.totalCmp entry.1 entry.2 table) []

theorem foldlM_buildNode (hread : ∀ id ∈ ids, graph.property (.node id) property = .ok (read id))
    (hlimits : ∀ id ∈ ids, (read id).withinKeyLimits = true) : ∀ table : HashJoinTable,
    ids.foldlM (buildNode graph property) table =
      .ok ((buildEntries read ids).foldl
        (fun table entry => pushBucket Value.totalCmp entry.1 entry.2 table) table) := by
  induction ids with
  | nil => exact fun _ => rfl
  | cons id ids ih =>
    intro table
    rw [forall_mem_cons] at hread hlimits
    rw [foldlM_cons, buildNode, hread.1, buildEntries, filter_cons]
    by_cases hself : (read id).equals (read id) = some true
    · rw [if_pos (by rw [hself]; rfl)]
      show ((if (read id).equals (read id) = some true then _ else _) >>= _) = _
      rw [if_pos hself, groupingKey, if_pos hlimits.1]
      exact ih hread.2 hlimits.2 _
    · rw [if_neg (by simpa using hself)]
      show ((if (read id).equals (read id) = some true then _ else _) >>= _) = _
      rw [if_neg hself]
      exact ih hread.2 hlimits.2 table

/-- Building in batches is building at once. -/
theorem buildBatches_eq {batches : List (List UInt64)}
    (hread : ∀ id ∈ batches.flatten, graph.property (.node id) property = .ok (read id))
    (hlimits : ∀ id ∈ batches.flatten, (read id).withinKeyLimits = true) :
    buildBatches graph property batches = .ok (filledTable read batches.flatten) := by
  rw [filledTable, ← foldlM_buildNode hread hlimits, buildBatches]
  generalize ([] : HashJoinTable) = table
  clear hread hlimits
  induction batches generalizing table with
  | nil => rfl
  | cons ids batches ih =>
    rw [foldlM_cons, flatten_cons, foldlM_append]
    congr 1
    funext table
    exact ih table

/-- **The bucket of a probe value**: the candidates equal to it, in source order. -/
theorem bucket_eq_filter (hself : value.equals value = some true) :
    (bucket Value.totalCmp value (filledTable read ids)).getD [] =
      ids.filter fun id => value.equals (read id) == some true := by
  rw [filledTable, bucket_foldl_push, buildEntries,
    filter_map, filter_filter, map_map]
  have hid : (Prod.snd ∘ fun id => (read id, id)) = (id : UInt64 → UInt64) := rfl
  rw [hid, map_id]
  apply filter_congr
  intro id _
  rw [Bool.eq_iff_iff, beq_iff_eq, Value.equals_iff_grouped, Bool.and_eq_true]
  show (_ == _) = true ∧ (_ == _) = true ↔ _
  rw [beq_iff_eq, beq_iff_eq]
  tauto

theorem collectM_candidates {row : Row}
    (hread : ∀ id ∈ ids, graph.property (.node id) property = .ok (read id)) :
    (collectM (fun id => do
      let stored ← graph.property (.node id) property
      pure (if value.equals stored = some true then [row.bindNode slot id] else [])) ids :
      Result (List Row)) =
      .ok ((ids.filter fun id => value.equals (read id) == some true).map (row.bindNode slot)) := by
  have hone : ∀ id ∈ ids, (do
      let stored ← graph.property (.node id) property
      pure (if value.equals stored = some true then [row.bindNode slot id] else []) :
        Result (List Row)) =
      .ok (if value.equals (read id) = some true then [row.bindNode slot id] else []) := by
    intro id hid
    rw [hread id hid]
    rfl
  rw [collectM_eq_flatMap hone]
  clear hread hone
  induction ids with
  | nil => rfl
  | cons id ids ih =>
    rw [flatMap_cons, Except.ok.inj ih, filter_cons]
    by_cases h : value.equals (read id) = some true
    · rw [if_pos h, if_pos (by rw [h]; rfl)]
      rfl
    · rw [if_neg h, if_neg (by simpa using h)]
      rfl

/-- One outer row: what it probes is what the loop over candidates keeps. -/
theorem rowBucket_map_eq {row : Row}
    (hread : ∀ id ∈ ids, graph.property (.node id) property = .ok (read id))
    (hprobe : ∀ entity value, row probe = .entity entity →
      graph.property entity probeProperty = .ok value → value.withinKeyLimits = true) :
    (HashProbe.rowBucket {
        graph, slot, probe, table := filledTable read ids, property := probeProperty } row).map
        (fun found => (found.getD []).map (row.bindNode slot)) =
      nestedRow graph slot probe property probeProperty ids row := by
  unfold nestedRow
  unfold HashProbe.rowBucket
  cases hvalue : row probe with
  | entity entity =>
    simp only
    cases hproperty : graph.property entity probeProperty with
    | error error => rfl
    | ok value =>
      show _ = collectM _ ids
      rw [collectM_candidates hread]
      show Except.map _ (if value.equals value = some true then _ else _) = _
      by_cases hself : value.equals value = some true
      · rw [if_pos hself, groupingKey, if_pos (hprobe entity value hvalue hproperty),
          ← bucket_eq_filter hself]
        rfl
      · -- a value that does not equal itself equals no candidate
        have hempty : (ids.filter fun id => value.equals (read id) == some true) = [] := by
          rw [filter_eq_nil_iff]
          intro id _ hequal
          exact hself (Value.equals_iff_grouped.mp (beq_iff_eq.mp hequal)).1
        rw [if_neg hself, hempty]
        rfl
  | _ => rfl

/-- **The hash join is the nested loop**, for every batch width and every split
of the build side, on values that may be grouping keys. -/
theorem hashJoin_eq_nestedLoop (graph : Graph) (slot probe : Slot)
    (property probeProperty : String) (batches : List (List UInt64)) (rows : List Row)
    (width : Nat) (hwidth : 0 < width)
    (hcandidates : ∀ id ∈ batches.flatten, ∃ value,
      graph.property (.node id) property = .ok value ∧ value.withinKeyLimits = true)
    (hprobes : ∀ row ∈ rows, ∀ entity value, row probe = .entity entity →
      graph.property entity probeProperty = .ok value → value.withinKeyLimits = true) :
    ∃ enough, ∀ fuel, enough ≤ fuel →
      hashJoin graph slot probe property probeProperty batches rows width fuel =
        some (nestedLoop graph slot probe property probeProperty batches.flatten rows) := by
  have hread : ∀ id ∈ batches.flatten, graph.property (.node id) property =
      .ok ((graph.property (.node id) property).toOption.getD .null) := by
    intro id hid
    obtain ⟨value, hvalue, _⟩ := hcandidates id hid
    rw [hvalue]
    rfl
  have hlimits : ∀ id ∈ batches.flatten, ((graph.property (.node id) property).toOption.getD
      .null).withinKeyLimits = true := by
    intro id hid
    obtain ⟨value, hvalue, hlimit⟩ := hcandidates id hid
    rwa [hvalue]
  unfold hashJoin
  rw [buildBatches_eq hread hlimits]
  refine ⟨_, fun fuel hfuel => (HashProbe.drain_eq hwidth fuel (.inl rfl) hfuel).trans ?_⟩
  congr 1
  clear hfuel
  -- row by row: a failing probe fails both, a bucket is the loop's selection
  induction rows with
  | nil => rfl
  | cons row rows ih =>
    rw [forall_mem_cons] at hprobes
    rw [HashProbe.remaining, ih hprobes.2, nestedLoop, nestedLoop, collectM_cons,
      ← rowBucket_map_eq hread hprobes.1]
    generalize HashProbe.rowBucket _ row = found
    cases found <;> rfl

end NestedLoop

/-! ## §7. Two joins. -/

/-- A graph of two nodes whose `k` are the integer and the float one. -/
def mixedNumbers : Graph where
  nodes := [{ id := 0, label := none, properties := [("k", .ok (.integer 1))] },
    { id := 1, label := none, properties := [("k", .ok (.float 0x3FF0000000000000))] }]
  edges := []
  nodes_nodup := by decide
  edges_nodup := nodup_nil
  endpoints := by simp

theorem hashJoin_mixedNumbers : ∃ enough, ∀ fuel, enough ≤ fuel →
    hashJoin mixedNumbers 1 0 "k" "k" [[0], [1]] [fun _ => .entity (.node 0)] 1 fuel =
      some (nestedLoop mixedNumbers 1 0 "k" "k" [0, 1] [fun _ => .entity (.node 0)]) := by
  refine hashJoin_eq_nestedLoop mixedNumbers 1 0 "k" "k" [[0], [1]] [fun _ => .entity (.node 0)] 1
    (by decide) ?_ ?_
  · simp only [flatten_cons, singleton_append,
      forall_mem_cons]
    exact ⟨⟨_, rfl, rfl⟩, ⟨_, rfl, rfl⟩, fun _ h => nomatch h⟩
  · intro row hrow entity value hentity hvalue
    rw [mem_singleton.mp hrow] at hentity
    cases hentity
    cases hvalue
    rfl

/-- A list with as many items as a whole key may have. -/
def largeKey : Value := .list (replicate Value.maxKeyItems (.integer 0))

/-- One node with one property. -/
def keyGraph (value : Value) : Graph where
  nodes := [{ id := 0, label := none, properties := [("k", .ok value)] }]
  edges := []
  nodes_nodup := by simp
  edges_nodup := nodup_nil
  endpoints := by simp

theorem keyGraph_property (value : Value) : (keyGraph value).property (.node 0) "k" = .ok value :=
  rfl

theorem buildBatches_keyGraph (hself : value.equals value = some true)
    (hlimits : value.withinKeyLimits = false) :
    buildBatches (keyGraph value) "k" [[0]] =
      .error (.runtime "resource_limit" "value_depth" "value exceeds structural limits") := by
  have hnode : buildNode (keyGraph value) "k" [] 0 =
      .error (.runtime "resource_limit" "value_depth" "value exceeds structural limits") := by
    show (if value.equals value = some true then _ else _) = _
    rw [if_pos hself, groupingKey, hlimits]
    rfl
  rw [buildBatches, foldlM_cons, foldlM_cons, hnode]
  rfl

theorem nestedLoop_keyGraph (hself : value.equals value = some true) :
    nestedLoop (keyGraph value) 1 0 "k" "k" [0] [fun _ => .entity (.node 0)] =
      .ok [Row.bindNode (fun _ => .entity (.node 0)) 1 0] := by
  have hread : ∀ id ∈ [(0 : UInt64)], (keyGraph value).property (.node id) "k" =
      .ok ((fun _ => value) id) := by
    intro id hid
    rw [mem_singleton.mp hid, keyGraph_property]
  have hrow : nestedRow (keyGraph value) 1 0 "k" "k" [0] (fun _ => .entity (.node 0)) =
      .ok [Row.bindNode (fun _ => .entity (.node 0)) 1 0] := by
    refine (collectM_candidates hread).trans ?_
    rw [filter_cons, if_pos (by rw [hself]; rfl)]
    rfl
  rw [nestedLoop, collectM_cons, hrow]
  rfl

theorem checkShapeAll_replicate {depth : Nat} : ∀ {remaining count : Nat}, remaining < count →
    Value.checkShapeAll depth remaining (replicate count (.integer 0)) = none
  | remaining, 0, h => by omega
  | remaining, count + 1, h => by
    rw [replicate_succ, Value.checkShapeAll, Value.checkShape]
    split_ifs with hroom
    · exact checkShapeAll_replicate (by omega)
    · rfl

theorem largeKey_withinKeyLimits : largeKey.withinKeyLimits = false := by
  unfold Value.withinKeyLimits largeKey
  rw [Value.checkShape, checkShapeAll_replicate (by decide)]
  rfl

theorem largeKey_equals_self : largeKey.equals largeKey = some true := by
  have hall : ∀ count, Value.allDefinite (replicate count (.integer 0)) = true := by
    intro count
    induction count with
    | zero => rw [replicate_zero, Value.allDefinite]
    | succ count ih =>
      rw [replicate_succ, Value.allDefinite, ih]
      rfl
  rw [Value.equals_self_iff]
  exact hall _

/-- A readable list that equals itself is too large for a key: the nested loop
keeps the pair, the hash join fails. -/
theorem hashJoin_rejects_largeKey :
    (∀ id ∈ [[(0 : UInt64)]].flatten, ∃ value,
      (keyGraph largeKey).property (.node id) "k" = .ok value) ∧
    ∀ width fuel,
      hashJoin (keyGraph largeKey) 1 0 "k" "k" [[0]] [fun _ => .entity (.node 0)] width fuel ≠
        some (nestedLoop (keyGraph largeKey) 1 0 "k" "k" [[0]].flatten
          [fun _ => .entity (.node 0)]) := by
  refine ⟨?_, ?_⟩
  · intro id hid
    rw [mem_singleton.mp hid]
    exact ⟨largeKey, rfl⟩
  · intro width fuel
    have hflatten : [[(0 : UInt64)]].flatten = [0] := rfl
    rw [hashJoin, buildBatches_keyGraph largeKey_equals_self largeKey_withinKeyLimits]
    exact fun h => nomatch h

end HelixDb.Relational
