/-
  HelixDb.Relational.GraphOrder

  **PATTERN ORDERS** and the schedule of one MATCH.

  An order lists the node sources and the relationships of a pattern with a
  priority each.  The schedule repeats: expand the first relationship with a
  bound endpoint; otherwise bind the first unbound source, by an index lookup, a
  hash join, a scan of a whole relationship type, or a scan of its nodes.  Costs
  and row estimates choose among orders and are left out, except the estimate
  that picks among the lookups of one slot.

    • `GraphPatternOrder.valid_of_tryFrom` — what construction establishes;
    • `GraphPatternOrder.scheduleStep_sound` — every turn is one of six steps;
    • `GraphPatternOrder.schedule_covers` — a schedule ends, uses each relationship
      once and binds each source once, from inputs that are bound.
-/
import HelixDb.Relational.Query

namespace HelixDb.Relational

open HelixDb.Lib List

/-! ## §1. Orders. -/

/-- A node pattern and the rows expected of its scan. -/
structure PatternSource where
  slot : Slot
  rows : Nat

/-- A relationship of the pattern; `scan` allows starting from its edges. -/
structure PatternExpansion where
  fromSlot : Slot
  toSlot : Slot
  relationship : Slot
  scan : Bool

/-- Two properties that must be equal. -/
structure PatternEquality where
  left : Slot
  leftKey : String
  right : Slot
  rightKey : String

/-- Equality access keyed on a binding resolved before: the value of the probe
slot, or its property; `member` looks up every member of a list. -/
structure PatternLookup where
  slot : Slot
  probe : Slot
  probeProperty : Option String
  member : Bool
  label : String
  property : String
  estimatedRows : Nat

/-- What the order of a pattern's steps is computed from. -/
structure GraphPatternOrder where
  sources : List PatternSource
  relationships : List PatternExpansion
  incoming : List Slot
  sourcePriority : List Nat
  relationshipPriority : List Nat
  equality : Option PatternEquality
  lookups : List PatternLookup

/-- The steps of a match. -/
inductive MatchStep where
  | scan (slot : Slot)
  | indexLookup (lookup : PatternLookup)
  | expand (relationship : Nat) (fromSlot toSlot : Slot) (reverse : Bool)
  | scanRelationship (relationship : Nat)
  | hashJoin (slot : Slot) (property : String) (probe : Slot) (probeProperty : String)

namespace GraphPatternOrder

/-- The slots of the node patterns. -/
def sourceSlots (order : GraphPatternOrder) : List Slot := order.sources.map PatternSource.slot

/-! ## §2. Validation. -/

/-- `new`: unique sources that contain every endpoint; a scanned relationship
and its endpoints arrive unbound. -/
def new (sources : List PatternSource) (relationships : List PatternExpansion)
    (incoming : List Slot) : Result GraphPatternOrder := do
  let nodes := sources.map PatternSource.slot
  require (!sources.isEmpty && decide (sources.length ≤ 4096)
      && decide (relationships.length ≤ 4096) && decide nodes.Nodup
      && relationships.all fun rel => nodes.contains rel.fromSlot && nodes.contains rel.toSlot)
    (internalError "invalid_pattern_order"
      "pattern sources must be unique and contain every endpoint")
  require (relationships.all fun rel => !rel.scan ||
      !(incoming.contains rel.fromSlot || incoming.contains rel.toSlot
        || incoming.contains rel.relationship))
    (internalError "invalid_pattern_order"
      "a relationship scan binds an unbound relationship and endpoints")
  let sorted := sources.mergeSort fun a b =>
    decide (a.rows < b.rows ∨ a.rows = b.rows ∧ a.slot ≤ b.slot)
  pure {
    sources := sorted
    relationships
    incoming
    sourcePriority := range sources.length
    relationshipPriority := range relationships.length
    equality := none
    lookups := [] }

/-- `with_equality`. -/
def withEquality (order : GraphPatternOrder) (equality : PatternEquality) :
    Result GraphPatternOrder := do
  require (equality.left != equality.right && equality.leftKey != "" && equality.rightKey != ""
      && order.sourceSlots.contains equality.left && order.sourceSlots.contains equality.right)
    (internalError "invalid_pattern_equality"
      "join keys require distinct node bindings and nonempty property names")
  pure { order with equality := some equality }

/-- A lookup binds an unbound node of the pattern; its probe is incoming or
another binding of the pattern. -/
def admitsLookup (order : GraphPatternOrder) (lookup : PatternLookup) : Bool :=
  !order.incoming.contains lookup.slot && lookup.probe != lookup.slot
    && (order.incoming.contains lookup.probe || order.sourceSlots.contains lookup.probe
      || (order.relationships.map PatternExpansion.relationship).contains lookup.probe)
    && order.sourceSlots.contains lookup.slot

/-- `with_lookups`. -/
def withLookups (order : GraphPatternOrder) (lookups : List PatternLookup) :
    Result GraphPatternOrder := do
  require (decide (lookups.map fun lookup => (lookup.slot, lookup.probe)).Nodup
      && lookups.all order.admitsLookup)
    (internalError "invalid_pattern_lookup"
      "lookups require a distinct unbound node and a probe bound before it")
  pure { order with lookups }

/-- `try_from`: the constructor, the two extensions, and the priorities. -/
def tryFrom (input : GraphPatternOrder) : Result GraphPatternOrder := do
  let order ← new input.sources input.relationships input.incoming
  require (decide (input.sourcePriority.Perm (range order.sources.length))
      && decide (input.relationshipPriority.Perm (range order.relationships.length)))
    (internalError "invalid_pattern_order" "pattern priorities must be permutations")
  let order ← input.equality.elim (pure order) order.withEquality
  let order ← order.withLookups input.lookups
  pure { order with
    sourcePriority := input.sourcePriority
    relationshipPriority := input.relationshipPriority }

/-- What every accepted order satisfies. -/
structure Valid (order : GraphPatternOrder) : Prop where
  endpoints : ∀ rel ∈ order.relationships,
    rel.fromSlot ∈ order.sourceSlots ∧ rel.toSlot ∈ order.sourceSlots
  scans : ∀ rel ∈ order.relationships, rel.scan = true →
    rel.fromSlot ∉ order.incoming ∧ rel.toSlot ∉ order.incoming ∧
      rel.relationship ∉ order.incoming
  sourcePriority : order.sourcePriority.Perm (range order.sources.length)
  relationshipPriority :
    order.relationshipPriority.Perm (range order.relationships.length)
  lookups : ∀ lookup ∈ order.lookups, lookup.probe ≠ lookup.slot
  equality : ∀ equality, order.equality = some equality →
    equality.left ∈ order.sourceSlots ∧ equality.right ∈ order.sourceSlots

variable {sources : List PatternSource} {relationships : List PatternExpansion}
  {incoming : List Slot} {order : GraphPatternOrder}

theorem new_ok (h : new sources relationships incoming = .ok order) :
    order.relationships = relationships ∧ order.incoming = incoming ∧
      order.sources.Perm sources ∧
      (∀ rel ∈ relationships, rel.fromSlot ∈ order.sourceSlots ∧
        rel.toSlot ∈ order.sourceSlots) ∧
      ∀ rel ∈ relationships, rel.scan = true → rel.fromSlot ∉ incoming ∧
        rel.toSlot ∉ incoming ∧ rel.relationship ∉ incoming := by
  obtain ⟨_, hunique, h⟩ := except_bind_ok h
  obtain ⟨_, hscans, h⟩ := except_bind_ok h
  have hsorted : ∀ le : PatternSource → PatternSource → Bool,
      (sources.mergeSort le).Perm sources := fun le => mergeSort_perm sources le
  cases h
  have hunique := require_ok hunique
  have hscans := require_ok hscans
  simp only [Bool.and_eq_true, all_eq_true, contains_iff_mem] at hunique
  refine ⟨rfl, rfl, hsorted _, ?_, ?_⟩
  · intro rel hrel
    obtain ⟨hfrom, hto⟩ := hunique.2 rel hrel
    exact ⟨((hsorted _).map _).mem_iff.mpr hfrom, ((hsorted _).map _).mem_iff.mpr hto⟩
  · intro rel hrel hscan
    have hrel := all_eq_true.mp hscans rel hrel
    simpa [hscan, and_assoc] using hrel

theorem new_equality (h : new sources relationships incoming = .ok order) :
    order.equality = none := by
  obtain ⟨_, _, h⟩ := except_bind_ok h
  obtain ⟨_, _, h⟩ := except_bind_ok h
  cases h
  rfl

/-- **Accepted orders are valid.** -/
theorem valid_of_tryFrom {input : GraphPatternOrder} (h : tryFrom input = .ok order) :
    order.Valid := by
  obtain ⟨base, hbase, h⟩ := except_bind_ok h
  obtain ⟨_, hpriorities, h⟩ := except_bind_ok h
  obtain ⟨joined, hjoined, h⟩ := except_bind_ok h
  obtain ⟨looked, hlooked, h⟩ := except_bind_ok h
  obtain ⟨hrels, hincoming, _, hends, hscans⟩ := new_ok hbase
  have hpriorities := require_ok hpriorities
  simp only [Bool.and_eq_true, decide_eq_true_eq] at hpriorities
  have hjoin : joined.sources = base.sources ∧ joined.relationships = base.relationships ∧
      joined.incoming = base.incoming ∧ ∀ equality, joined.equality = some equality →
        equality.left ∈ base.sourceSlots ∧ equality.right ∈ base.sourceSlots := by
    cases hequality : input.equality with
    | none =>
      rw [hequality] at hjoined
      cases hjoined
      refine ⟨rfl, rfl, rfl, ?_⟩
      intro equality hsome
      simp [new_equality hbase] at hsome
    | some equality =>
      rw [hequality] at hjoined
      obtain ⟨_, hkeys, hjoined⟩ := except_bind_ok hjoined
      cases hjoined
      have hkeys := require_ok hkeys
      simp only [Bool.and_eq_true, contains_iff_mem] at hkeys
      refine ⟨rfl, rfl, rfl, ?_⟩
      intro other hsome
      cases hsome
      exact ⟨hkeys.1.2, hkeys.2⟩
  obtain ⟨_, hlookups, hlooked⟩ := except_bind_ok hlooked
  cases hlooked
  cases h
  have hlookups := require_ok hlookups
  simp only [Bool.and_eq_true, all_eq_true] at hlookups
  obtain ⟨hsources, hrelationships, hin, hequality⟩ := hjoin
  exact {
    endpoints := by
      intro rel hrel
      show rel.fromSlot ∈ joined.sources.map _ ∧ rel.toSlot ∈ joined.sources.map _
      rw [hsources]
      exact hends rel (hrels ▸ hrelationships ▸ hrel)
    scans := by
      intro rel hrel hscan
      show rel.fromSlot ∉ joined.incoming ∧ rel.toSlot ∉ joined.incoming ∧
        rel.relationship ∉ joined.incoming
      rw [hin, hincoming]
      exact hscans rel (hrels ▸ hrelationships ▸ hrel) hscan
    sourcePriority := hsources ▸ hpriorities.1
    relationshipPriority := hrelationships ▸ hpriorities.2
    lookups := by
      intro lookup hlookup
      have hadmitted := hlookups.2 lookup hlookup
      simp only [admitsLookup, Bool.and_eq_true, bne_iff_ne] at hadmitted
      exact hadmitted.1.1.2
    equality := by
      intro equality hsome
      show equality.left ∈ joined.sources.map _ ∧ equality.right ∈ joined.sources.map _
      rw [hsources]
      exact hequality equality hsome }

/-! ## §3. Scheduling. -/

variable (order)

/-- The first relationship by priority with a known endpoint. -/
def nextRelationship (known : List Slot) (remaining : List Nat) :
    Option (Nat × PatternExpansion) :=
  order.relationshipPriority.findSome? fun index =>
    if remaining.contains index then
      order.relationships[index]?.bind fun rel =>
        if known.contains rel.fromSlot || known.contains rel.toSlot then some (index, rel)
        else none
    else none

/-- The first source that is not bound yet. -/
def nextSource (known : List Slot) : Option PatternSource :=
  order.sourcePriority.findSome? fun index =>
    order.sources[index]?.bind fun source =>
      if known.contains source.slot then none else some source

/-- The cheapest lookup of a slot whose probe is known. -/
def lookupFor (known : List Slot) (slot : Slot) : Option PatternLookup :=
  (order.lookups.filter fun lookup => lookup.slot == slot && known.contains lookup.probe).argmin
    PatternLookup.estimatedRows

/-- Probe slot, key of the joined slot, key of the probe. -/
def joinFor (known : List Slot) (slot : Slot) : Option (Slot × String × String) :=
  order.equality.bind fun equality =>
    if equality.left == slot && known.contains equality.right then
      some (equality.right, equality.leftKey, equality.rightKey)
    else if equality.right == slot && known.contains equality.left then
      some (equality.left, equality.rightKey, equality.leftKey)
    else none

/-- The first remaining relationship at the slot that is read by a scan. -/
def scanFor (remaining : List Nat) (slot : Slot) : Option (Nat × PatternExpansion) :=
  order.relationshipPriority.findSome? fun index =>
    order.relationships[index]?.bind fun rel =>
      if rel.scan && remaining.contains index && (rel.fromSlot == slot || rel.toSlot == slot)
      then some (index, rel) else none

/-- One turn of the scheduling loop: the step, and what is known and remains. -/
def scheduleStep (known : List Slot) (remaining : List Nat) :
    Option (MatchStep × List Slot × List Nat) :=
  match order.nextRelationship known remaining with
  | some (index, rel) =>
    let reverse := !known.contains rel.fromSlot
    let start := if reverse then rel.toSlot else rel.fromSlot
    let stop := if reverse then rel.fromSlot else rel.toSlot
    some (.expand index start stop reverse, stop :: rel.relationship :: known,
      remaining.erase index)
  | none =>
    match order.nextSource known with
    | none => none
    | some source =>
      match order.lookupFor known source.slot with
      | some lookup => some (.indexLookup lookup, source.slot :: known, remaining)
      | none =>
        match order.joinFor known source.slot, order.scanFor remaining source.slot with
        | some (probe, property, probeProperty), _ =>
          some (.hashJoin source.slot property probe probeProperty,
            source.slot :: known, remaining)
        | none, some (index, rel) =>
          some (.scanRelationship index,
            rel.fromSlot :: rel.toSlot :: rel.relationship :: known,
            remaining.erase index)
        | none, none => some (.scan source.slot, source.slot :: known, remaining)

/-- The steps, one after the other; every step uses up fuel. -/
def scheduleFrom : Nat → List Slot → List Nat → List MatchStep
  | 0, _, _ => []
  | fuel + 1, known, remaining =>
    match order.scheduleStep known remaining with
    | none => []
    | some (step, known, remaining) => step :: scheduleFrom fuel known remaining

/-- Every turn uses up a relationship or a source. -/
def schedule : List MatchStep :=
  order.scheduleFrom (order.sources.length + order.relationships.length) order.incoming
    (range order.relationships.length)

/-! ## §4. What a turn can do. -/

/-- One turn: what makes each step possible, and what it makes known. -/
inductive ScheduleStep (known : List Slot) (remaining : List Nat) :
    MatchStep → List Slot → List Nat → Prop
  | forward {index : Nat} {rel : PatternExpansion} (hindex : index ∈ remaining)
      (hrel : order.relationships[index]? = some rel) (hfrom : rel.fromSlot ∈ known) :
      ScheduleStep known remaining (.expand index rel.fromSlot rel.toSlot false)
        (rel.toSlot :: rel.relationship :: known) (remaining.erase index)
  | reverse {index : Nat} {rel : PatternExpansion} (hindex : index ∈ remaining)
      (hrel : order.relationships[index]? = some rel) (hto : rel.toSlot ∈ known) :
      ScheduleStep known remaining (.expand index rel.toSlot rel.fromSlot true)
        (rel.fromSlot :: rel.relationship :: known) (remaining.erase index)
  | lookup {lookup : PatternLookup} (hlookup : lookup ∈ order.lookups)
      (hslot : lookup.slot ∈ order.sourceSlots) (hnew : lookup.slot ∉ known)
      (hprobe : lookup.probe ∈ known) :
      ScheduleStep known remaining (.indexLookup lookup) (lookup.slot :: known) remaining
  | join {equality : PatternEquality} (hequality : order.equality = some equality)
      {slot probe : Slot} {property probeProperty : String}
      (hsides : (slot, property, probe, probeProperty) =
          (equality.left, equality.leftKey, equality.right, equality.rightKey) ∨
        (slot, property, probe, probeProperty) =
          (equality.right, equality.rightKey, equality.left, equality.leftKey))
      (hslot : slot ∈ order.sourceSlots) (hnew : slot ∉ known) (hprobe : probe ∈ known) :
      ScheduleStep known remaining (.hashJoin slot property probe probeProperty) (slot :: known)
        remaining
  | scanRelationship {index : Nat} {rel : PatternExpansion} (hindex : index ∈ remaining)
      (hrel : order.relationships[index]? = some rel) (hscan : rel.scan = true)
      (hfrom : rel.fromSlot ∉ known) (hto : rel.toSlot ∉ known) :
      ScheduleStep known remaining (.scanRelationship index)
        (rel.fromSlot :: rel.toSlot :: rel.relationship :: known) (remaining.erase index)
  | scan {slot : Slot} (hslot : slot ∈ order.sourceSlots) (hnew : slot ∉ known) :
      ScheduleStep known remaining (.scan slot) (slot :: known) remaining

variable {order} {known known' : List Slot} {remaining remaining' : List Nat} {index : Nat}
  {rel : PatternExpansion} {slot : Slot} {step : MatchStep}

theorem nextRelationship_some
    (h : order.nextRelationship known remaining = some (index, rel)) :
    index ∈ remaining ∧ order.relationships[index]? = some rel ∧
      (rel.fromSlot ∈ known ∨ rel.toSlot ∈ known) := by
  obtain ⟨found, _, hfound⟩ := exists_of_findSome?_eq_some h
  split_ifs at hfound with hremaining
  rw [Option.bind_eq_some_iff] at hfound
  obtain ⟨expansion, hexpansion, hfound⟩ := hfound
  split_ifs at hfound with hknown
  cases hfound
  exact ⟨contains_iff_mem.mp hremaining, hexpansion, by simpa using hknown⟩

/-- When no relationship can expand, no remaining one touches a known slot. -/
theorem nextRelationship_none (hvalid : order.Valid)
    (h : order.nextRelationship known remaining = none)
    (hindex : index ∈ remaining) (hrel : order.relationships[index]? = some rel) :
    rel.fromSlot ∉ known ∧ rel.toSlot ∉ known := by
  have hlt : index < order.relationships.length := (List.getElem?_eq_some_iff.mp hrel).1
  have hmem : index ∈ order.relationshipPriority :=
    hvalid.relationshipPriority.mem_iff.mpr (mem_range.mpr hlt)
  have hnone := findSome?_eq_none_iff.mp h index hmem
  rw [if_pos (contains_iff_mem.mpr hindex), hrel, Option.bind_some] at hnone
  split_ifs at hnone with hknown
  simpa using hknown

theorem nextSource_some {source : PatternSource} (h : order.nextSource known = some source) :
    source.slot ∈ order.sourceSlots ∧ source.slot ∉ known := by
  obtain ⟨found, _, hfound⟩ := exists_of_findSome?_eq_some h
  rw [Option.bind_eq_some_iff] at hfound
  obtain ⟨source', hsource, hfound⟩ := hfound
  split_ifs at hfound with hknown
  cases hfound
  exact ⟨mem_map_of_mem (mem_of_getElem? hsource), by simpa using hknown⟩

theorem nextSource_none (hvalid : order.Valid) (h : order.nextSource known = none)
    (hslot : slot ∈ order.sourceSlots) : slot ∈ known := by
  obtain ⟨source, hsource, rfl⟩ := mem_map.mp hslot
  obtain ⟨index, hindex⟩ := mem_iff_getElem?.mp hsource
  have hlt : index < order.sources.length := (List.getElem?_eq_some_iff.mp hindex).1
  have hmem : index ∈ order.sourcePriority :=
    hvalid.sourcePriority.mem_iff.mpr (mem_range.mpr hlt)
  have hnone := findSome?_eq_none_iff.mp h index hmem
  rw [hindex, Option.bind_some] at hnone
  split_ifs at hnone with hknown
  exact contains_iff_mem.mp hknown

theorem scanFor_some
    (h : order.scanFor remaining slot = some (index, rel)) :
    index ∈ remaining ∧ order.relationships[index]? = some rel ∧ rel.scan = true ∧
      (rel.fromSlot = slot ∨ rel.toSlot = slot) := by
  obtain ⟨found, _, hfound⟩ := exists_of_findSome?_eq_some h
  rw [Option.bind_eq_some_iff] at hfound
  obtain ⟨expansion, hexpansion, hfound⟩ := hfound
  split_ifs at hfound with hscan
  cases hfound
  rw [Bool.and_eq_true, Bool.and_eq_true, Bool.or_eq_true, contains_iff_mem, beq_iff_eq,
    beq_iff_eq] at hscan
  exact ⟨hscan.1.2, hexpansion, hscan.1.1, hscan.2⟩

/-- **Every turn is one of the six steps.** -/
theorem scheduleStep_sound (hvalid : order.Valid)
    (h : order.scheduleStep known remaining = some (step, known', remaining')) :
    order.ScheduleStep known remaining step known' remaining' := by
  unfold scheduleStep at h
  split at h
  next index rel hnext =>
    obtain ⟨hindex, hrel, hknown⟩ := nextRelationship_some hnext
    by_cases hfrom : rel.fromSlot ∈ known
    · simp only [contains_iff_mem.mpr hfrom] at h
      obtain ⟨rfl, rfl, rfl⟩ := h
      exact .forward hindex hrel hfrom
    · have hcontains : known.contains rel.fromSlot = false := by simpa using hfrom
      simp only [hcontains] at h
      obtain ⟨rfl, rfl, rfl⟩ := h
      exact .reverse hindex hrel (hknown.resolve_left hfrom)
  next hnone =>
    split at h
    next => cases h
    next source hsource =>
      obtain ⟨hslot, hnew⟩ := nextSource_some hsource
      split at h
      next lookup hlookup =>
        have hmem := argmin_mem hlookup
        rw [mem_filter, Bool.and_eq_true, beq_iff_eq, contains_iff_mem] at hmem
        obtain ⟨hmem, hslot', hprobe⟩ := hmem
        cases h
        rw [← hslot'] at hslot hnew ⊢
        exact .lookup hmem hslot hnew hprobe
      next =>
        split at h
        next probe property probeProperty _ hjoin =>
          cases h
          rw [joinFor, Option.bind_eq_some_iff] at hjoin
          obtain ⟨equality, hequality, hjoin⟩ := hjoin
          split_ifs at hjoin with hleft hright
          · rw [Bool.and_eq_true, beq_iff_eq, contains_iff_mem] at hleft
            cases hjoin
            exact .join hequality (.inl (by rw [hleft.1])) hslot hnew hleft.2
          · rw [Bool.and_eq_true, beq_iff_eq, contains_iff_mem] at hright
            cases hjoin
            exact .join hequality (.inr (by rw [hright.1])) hslot hnew hright.2
        next index rel _ hscan =>
          cases h
          obtain ⟨hindex, hrel, hscan, _⟩ := scanFor_some hscan
          obtain ⟨hfrom, hto⟩ := nextRelationship_none hvalid hnone hindex hrel
          exact .scanRelationship hindex hrel hscan hfrom hto
        next =>
          cases h
          exact .scan hslot hnew

/-! ## §5. Running a schedule. -/

/-- Sources still to be bound. -/
def unbound (order : GraphPatternOrder) (known : List Slot) : Nat :=
  order.sourceSlots.countP fun slot => !known.contains slot

theorem countP_unknown_le (h : known ⊆ known') (slots : List Slot) :
    (slots.countP fun slot => !known'.contains slot) ≤
      slots.countP fun slot => !known.contains slot := by
  apply countP_mono_left
  intro slot _ hslot
  rw [Bool.not_eq_true', ← Bool.not_eq_true, contains_iff_mem] at hslot ⊢
  exact fun hknown => hslot (h hknown)

theorem unbound_lt (h : known ⊆ known') (hslot : slot ∈ order.sourceSlots) (hnew : slot ∉ known)
    (hknown : slot ∈ known') : order.unbound known' < order.unbound known := by
  unfold unbound
  -- bring the newly bound source to the front; the rest cannot grow
  obtain ⟨front, back, hsplit⟩ := append_of_mem hslot
  have hfront := countP_unknown_le h front
  have hback := countP_unknown_le h back
  rw [hsplit, countP_append, countP_append, countP_cons_of_neg (by simpa using hknown),
    countP_cons_of_pos (by simpa using hnew)]
  omega

section

variable (h : order.ScheduleStep known remaining step known' remaining')
include h

/-- A turn forgets nothing. -/
theorem ScheduleStep.known_subset : known ⊆ known' := by
  cases h with
  | forward _ _ _ | reverse _ _ _ =>
    exact subset_cons_of_subset _ (subset_cons_self _ _)
  | scanRelationship _ _ _ _ _ =>
    exact subset_cons_of_subset _
      (subset_cons_of_subset _ (subset_cons_self _ _))
  | lookup _ _ _ _ | join _ _ _ _ _ | scan _ _ => exact subset_cons_self _ _

/-- Every turn makes progress. -/
theorem ScheduleStep.decreases :
    order.unbound known' + remaining'.length < order.unbound known + remaining.length := by
  have hle : order.unbound known' ≤ order.unbound known :=
    countP_unknown_le h.known_subset _
  have hknown := h.known_subset
  cases h with
  | forward hindex _ _ | reverse hindex _ _ | scanRelationship hindex _ _ _ _ =>
    have hpos := length_pos_of_mem hindex
    rw [length_erase_of_mem hindex]
    omega
  | lookup _ hslot hnew _ | join _ _ hslot hnew _ | scan hslot hnew =>
    have hlt := unbound_lt hknown hslot hnew mem_cons_self
    omega

theorem ScheduleStep.remaining_subset : remaining' ⊆ remaining := by
  cases h with
  | forward _ _ _ | reverse _ _ _ | scanRelationship _ _ _ _ _ => exact erase_subset
  | lookup _ _ _ _ | join _ _ _ _ _ | scan _ _ => exact List.Subset.refl _

end

/-- What the loop has made known: slots that came in, sources, and relationships
that no longer remain. -/
structure Reached (order : GraphPatternOrder) (known : List Slot) (remaining : List Nat) :
    Prop where
  nodup : remaining.Nodup
  bounded : ∀ index ∈ remaining, index < order.relationships.length
  incoming : order.incoming ⊆ known
  known : ∀ slot ∈ known, slot ∈ order.incoming ∨ slot ∈ order.sourceSlots ∨
    ∃ index rel, index ∉ remaining ∧ order.relationships[index]? = some rel ∧
      rel.relationship = slot

theorem reached_start (order : GraphPatternOrder) :
    order.Reached order.incoming (range order.relationships.length) where
  nodup := nodup_range
  bounded := fun _ hindex => mem_range.mp hindex
  incoming := List.Subset.refl _
  known := fun _ hslot => .inl hslot

theorem Reached.of_step (hvalid : order.Valid) (h : order.Reached known remaining)
    (hstep : order.ScheduleStep known remaining step known' remaining') :
    order.Reached known' remaining' := by
  have hremaining := hstep.remaining_subset
  have hold : ∀ slot ∈ known, slot ∈ order.incoming ∨ slot ∈ order.sourceSlots ∨
      ∃ index rel, index ∉ remaining' ∧ order.relationships[index]? = some rel ∧
        rel.relationship = slot := by
    intro slot hslot
    rcases h.known slot hslot with hin | hsource | ⟨index, rel, hindex, hrel⟩
    · exact .inl hin
    · exact .inr (.inl hsource)
    · exact .inr (.inr ⟨index, rel, fun hmem => hindex (hremaining hmem), hrel⟩)
  refine {
    nodup := ?_
    bounded := fun index hindex => h.bounded index (hremaining hindex)
    incoming := fun slot hslot => hstep.known_subset (h.incoming hslot)
    known := ?_ }
  · cases hstep with
    | forward _ _ _ | reverse _ _ _ | scanRelationship _ _ _ _ _ => exact h.nodup.erase _
    | lookup _ _ _ _ | join _ _ _ _ _ | scan _ _ => exact h.nodup
  · cases hstep with
    | forward _ hrel _ | reverse _ hrel _ | scanRelationship _ hrel _ _ _ =>
      have hends := hvalid.endpoints _ (mem_of_getElem? hrel)
      simp only [mem_cons, forall_eq_or_imp]
      refine ⟨.inr (.inl ?_), ?_⟩
      · first | exact hends.1 | exact hends.2
      · first
          | exact ⟨.inr (.inr ⟨_, _, h.nodup.not_mem_erase, hrel, rfl⟩), hold⟩
          | exact ⟨.inr (.inl hends.2), .inr (.inr ⟨_, _, h.nodup.not_mem_erase, hrel, rfl⟩),
              hold⟩
    | lookup _ hslot _ _ | join _ _ hslot _ _ | scan hslot _ =>
      simp only [mem_cons, forall_eq_or_imp]
      exact ⟨.inr (.inl hslot), hold⟩

/-- When no turn is left, every source is bound and every relationship used. -/
theorem scheduleStep_none (hvalid : order.Valid)
    (hremaining : ∀ index ∈ remaining, index < order.relationships.length)
    (h : order.scheduleStep known remaining = none) :
    remaining = [] ∧ ∀ slot ∈ order.sourceSlots, slot ∈ known := by
  have hboth : order.nextRelationship known remaining = none ∧ order.nextSource known = none := by
    unfold scheduleStep at h
    split at h
    · cases h
    · rename_i hrelationship
      split at h
      · exact ⟨hrelationship, by assumption⟩
      · split at h
        · cases h
        · split at h <;> cases h
  have hsources : ∀ slot ∈ order.sourceSlots, slot ∈ known :=
    fun slot hslot => nextSource_none hvalid hboth.2 hslot
  refine ⟨eq_nil_iff_forall_not_mem.mpr ?_, hsources⟩
  intro index hindex
  have hrel := getElem?_eq_getElem (hremaining index hindex)
  obtain ⟨hfrom, _⟩ := nextRelationship_none hvalid hboth.1 hindex hrel
  exact hfrom (hsources _ (hvalid.endpoints _ (mem_of_getElem? hrel)).1)

/-- **Induction over a schedule**: from the turn after which nothing is left back to the first. -/
theorem schedule_induction (hvalid : order.Valid)
    {motive : List Slot → List Nat → List MatchStep → Prop}
    (stop : ∀ {known}, order.Reached known [] → (∀ slot ∈ order.sourceSlots, slot ∈ known) →
      order.scheduleStep known [] = none → motive known [] [])
    (turn : ∀ {known remaining step known' remaining' steps}, order.Reached known remaining →
      order.scheduleStep known remaining = some (step, known', remaining') →
      order.ScheduleStep known remaining step known' remaining' →
      motive known' remaining' steps → motive known remaining (step :: steps)) :
    motive order.incoming (range order.relationships.length) order.schedule := by
  have hrun : ∀ (fuel : Nat) {known : List Slot} {remaining : List Nat},
      order.unbound known + remaining.length ≤ fuel → order.Reached known remaining →
      motive known remaining (order.scheduleFrom fuel known remaining) := by
    intro fuel
    induction fuel with
    | zero =>
      intro known remaining hfuel hreached
      have hempty : remaining = [] := eq_nil_of_length_eq_zero (by omega)
      have hcount : order.unbound known = 0 := by omega
      subst hempty
      have hsources : ∀ slot ∈ order.sourceSlots, slot ∈ known := by
        intro slot hslot
        simpa using countP_eq_zero.mp hcount slot hslot
      refine stop hreached hsources ?_
      cases hturn : order.scheduleStep known [] with
      | none => rfl
      | some next =>
        have hless := (scheduleStep_sound hvalid hturn).decreases
        omega
    | succ fuel ih =>
      intro known remaining hfuel hreached
      rw [scheduleFrom]
      cases hturn : order.scheduleStep known remaining with
      | none =>
        obtain ⟨rfl, hsources⟩ := scheduleStep_none hvalid hreached.bounded hturn
        exact stop hreached hsources hturn
      | some next =>
        have hsound := scheduleStep_sound hvalid hturn
        have hless := hsound.decreases
        exact turn hreached hturn hsound (ih (by omega) (hreached.of_step hvalid hsound))
  apply hrun _ _ order.reached_start
  have hcount : order.unbound order.incoming ≤ order.sources.length := by
    have hlength := countP_le_length (l := order.sourceSlots)
      (p := fun slot => !order.incoming.contains slot)
    rwa [sourceSlots, length_map] at hlength
  rw [length_range]
  omega

/-! ## §6. What a schedule covers. -/

/-- An order that validation accepts. -/
def Validated : Type := { order : GraphPatternOrder // ∃ input, tryFrom input = .ok order }

/-- The loop of `schedule` and its assertion that no relationship remains. -/
inductive Completes (order : GraphPatternOrder) : List Slot → List Nat → List MatchStep → Prop
  | stop {known : List Slot} (h : order.scheduleStep known [] = none) : Completes order known [] []
  | turn {known known' : List Slot} {remaining remaining' : List Nat} {step : MatchStep}
      {steps : List MatchStep}
      (h : order.scheduleStep known remaining = some (step, known', remaining'))
      (rest : Completes order known' remaining' steps) :
      Completes order known remaining (step :: steps)

/-- The slots a step binds, unless they are bound. -/
def binds (order : GraphPatternOrder) : MatchStep → List Slot
  | .scan slot | .hashJoin slot _ _ _ => [slot]
  | .indexLookup lookup => [lookup.slot]
  | .expand index _ toSlot _ =>
    toSlot :: (order.relationships[index]?.map PatternExpansion.relationship).toList
  | .scanRelationship index => order.relationships[index]?.elim [] fun rel =>
    [rel.fromSlot, rel.toSlot, rel.relationship]

/-- Whether a step reads the relationship there. -/
def MatchStep.uses (index : Nat) : MatchStep → Bool
  | .expand used _ _ _ | .scanRelationship used => used == index
  | _ => false

/-- The inputs of a step are bound, and what it takes to be unbound is not. -/
def Ready (order : GraphPatternOrder) (bound : List Slot) : MatchStep → Prop
  | .scan slot => slot ∉ bound
  | .indexLookup lookup => lookup.slot ∉ bound ∧ lookup.probe ∈ bound
  | .hashJoin slot _ probe _ => slot ∉ bound ∧ probe ∈ bound
  | .expand _ fromSlot _ _ => fromSlot ∈ bound
  | .scanRelationship index => ∀ rel ∈ order.relationships[index]?,
    rel.fromSlot ∉ bound ∧ rel.toSlot ∉ bound

/-- Every step is ready once the steps before it are done. -/
def AllReady (order : GraphPatternOrder) : List Slot → List MatchStep → Prop
  | _, [] => True
  | bound, step :: steps => order.Ready bound step ∧ order.AllReady (order.binds step ++ bound) steps

/-- How many of the steps bind the slot while it is unbound. -/
def timesBound (order : GraphPatternOrder) (slot : Slot) : List Slot → List MatchStep → Nat
  | _, [] => 0
  | bound, step :: steps => (if slot ∈ order.binds step ∧ slot ∉ bound then 1 else 0) +
    order.timesBound slot (order.binds step ++ bound) steps

section

variable (h : order.ScheduleStep known remaining step known' remaining')
include h

theorem ScheduleStep.known_eq :
    known' = order.binds step ++ known := by
  cases h <;> simp [binds, *]

theorem ScheduleStep.ready :
    order.Ready known step := by
  cases h <;> simp_all [Ready]

/-- A relationship that remains is used by the step or remains after it. -/
theorem ScheduleStep.uses
    (hnodup : remaining.Nodup) (index : Nat) :
    (if MatchStep.uses index step then 1 else 0) + (if index ∈ remaining' then 1 else 0) =
      if index ∈ remaining then 1 else 0 := by
  cases h with
  | forward hindex | reverse hindex | scanRelationship hindex =>
    simp only [MatchStep.uses]
    grind
  | lookup | join | scan => simp [MatchStep.uses]

end

theorem timesBound_eq (slot : Slot) (steps : List MatchStep) : ∀ bound,
    order.timesBound slot bound steps =
      if slot ∉ bound ∧ slot ∈ steps.flatMap order.binds then 1 else 0 := by
  induction steps with
  | nil => simp [timesBound]
  | cons step steps ih =>
    intro bound
    rw [timesBound]
    grind

/-- What the steps do from a turn with these slots known and these relationships remaining. -/
structure Covers (order : GraphPatternOrder) (known : List Slot) (remaining : List Nat)
    (steps : List MatchStep) : Prop where
  completes : order.Completes known remaining steps
  uses : ∀ index, steps.countP (MatchStep.uses index) = if index ∈ remaining then 1 else 0
  bound : ∀ slot ∈ order.sourceSlots, slot ∈ known ∨ slot ∈ steps.flatMap order.binds
  ready : order.AllReady known steps

theorem Covers.cons {steps : List MatchStep} (hreached : order.Reached known remaining)
    (hturn : order.scheduleStep known remaining = some (step, known', remaining'))
    (hstep : order.ScheduleStep known remaining step known' remaining')
    (h : order.Covers known' remaining' steps) : order.Covers known remaining (step :: steps) := by
  obtain rfl := hstep.known_eq
  refine ⟨.turn hturn h.completes, fun index => ?_, fun slot hslot => ?_, hstep.ready, h.ready⟩
  · rw [countP_cons, h.uses, Nat.add_comm]
    exact hstep.uses hreached.nodup index
  · have hbound := h.bound slot hslot
    rw [mem_append] at hbound
    rw [flatMap_cons, mem_append]
    tauto

/-- **Every schedule covers its pattern**: the loop ends and its assertion holds, each relationship
is used once, each source that is not incoming is bound once and each incoming one never, and
every step finds its inputs bound. -/
theorem schedule_covers (order : Validated) :
    order.1.Completes order.1.incoming (range order.1.relationships.length) order.1.schedule ∧
    (∀ index < order.1.relationships.length,
      order.1.schedule.countP (MatchStep.uses index) = 1) ∧
    (∀ slot ∈ order.1.sourceSlots, order.1.timesBound slot order.1.incoming order.1.schedule =
      if slot ∈ order.1.incoming then 0 else 1) ∧
    order.1.AllReady order.1.incoming order.1.schedule := by
  obtain ⟨order, input, hinput⟩ := order
  have hcovers : order.Covers order.incoming (range order.relationships.length) order.schedule :=
    schedule_induction (valid_of_tryFrom hinput)
      (fun _ hsources hturn =>
        ⟨.stop hturn, by simp, fun slot hslot => .inl (hsources slot hslot), trivial⟩)
      Covers.cons
  refine ⟨hcovers.completes, fun index hindex => ?_, fun slot hslot => ?_, hcovers.ready⟩
  · rw [hcovers.uses, if_pos (mem_range.mpr hindex)]
  · rw [timesBound_eq]
    have hbound := hcovers.bound slot hslot
    grind

end GraphPatternOrder

end HelixDb.Relational
