/-
  HelixDb.Backlog.Accounts

  **THE AGGREGATES ARE FUNCTIONS OF THE CHARGES.**

  Beside the charges the ledger keeps, per logical index, the retained bytes,
  the reference count of each member and the operation count of each
  generation, and per queue target the set of uncertain charges.  `Accounts`
  says that each is what the charge map determines.

  Reference counts are `u32`: the equalities hold while no member has 2³²
  outstanding operations, and the retained bytes of the indexes in `tracked`
  while their sum fits a `u64`.
-/
import HelixDb.Backlog.Reserve

namespace HelixDb.Backlog

open HelixDb.Lib HelixDb.Keys HelixDb.Lifecycle FinMap BacklogState Option

/-- The retained charges by operation ID. -/
abbrev Charges := FinMap QueuedOperationId Charge

/-! ## §1. Tallies over the charges. -/

/-- The total weight of the charges. -/
def tally (charges : Charges) (weight : Charge → Nat) : Nat :=
  charges.total fun _ charge => weight charge

section Tally

variable {charges : Charges} {id : QueuedOperationId} {charge : Charge} {weight : Charge → Nat}

theorem tally_insert_new (h : charges.lookup id = none) :
    tally (charges.insert id charge) weight = weight charge + tally charges weight := by
  have hsplit := total_erase charges (fun _ c => weight c) id
  rw [contribution, h, Nat.zero_add] at hsplit
  rw [tally, total_insert, ← hsplit, tally]

theorem tally_erase (h : charges.lookup id = some charge) :
    tally charges weight = weight charge + tally (charges.erase id) weight := by
  have hsplit := total_erase charges (fun _ c => weight c) id
  rwa [contribution, h] at hsplit

/-- An update that keeps the weight keeps the tally. -/
theorem tally_update {updated : Charge} (h : charges.lookup id = some charge)
    (hweight : weight updated = weight charge) :
    tally (charges.insert id updated) weight = tally charges weight := by
  rw [tally_erase h, ← hweight]
  exact total_insert charges (fun _ c => weight c) id updated

theorem tally_pos : 0 < tally charges weight ↔
    ∃ id charge, charges.lookup id = some charge ∧ 0 < weight charge := by
  constructor
  · intro hpos
    by_contra hnone
    have hzero : tally charges weight = 0 := by
      rw [tally, total, List.sum_eq_zero_iff]
      intro n hn
      obtain ⟨⟨id, charge⟩, hmem, rfl⟩ := List.mem_map.mp hn
      by_contra hweight
      exact hnone ⟨id, charge, AList.mem_lookup_iff.mpr hmem, Nat.pos_of_ne_zero hweight⟩
    omega
  · rintro ⟨id, charge, hlookup, hweight⟩
    rw [tally_erase hlookup]
    omega

end Tally

/-- 1 for a charge of `index`. -/
def inIndex (index : LogicalIndex) (charge : Charge) : Nat :=
  if charge.target.logicalIndex = index then 1 else 0

/-- The charged bytes of a charge of `index`. -/
def bytesIn (index : LogicalIndex) (charge : Charge) : Nat :=
  if charge.target.logicalIndex = index then charge.charged else 0

/-- 1 for a charge of `member` of `index`. -/
def ofMember (index : LogicalIndex) (member : Member) (charge : Charge) : Nat :=
  if charge.target.logicalIndex = index ∧ charge.member = member then 1 else 0

/-- 1 for a charge of `generation` of `index`. -/
def ofGeneration (index : LogicalIndex) (generation : IndexGenerationId) (charge : Charge) : Nat :=
  if charge.target.logicalIndex = index ∧ charge.target.generation = generation then 1 else 0

section Weights

variable {index : LogicalIndex} {charge : Charge}

section

variable (h : charge.target.logicalIndex = index)
include h

theorem inIndex_self : inIndex index charge = 1 :=
  if_pos h

theorem bytesIn_self :
    bytesIn index charge = charge.charged := if_pos h

theorem ofMember_self :
    ofMember index charge.member charge = 1 := if_pos ⟨h, rfl⟩

end

theorem ofMember_of_ne {member : Member} (h : member ≠ charge.member) :
    ofMember index member charge = 0 := if_neg fun hboth => h hboth.2.symm

theorem ofGeneration_self (h : charge.target.logicalIndex = index) :
    ofGeneration index charge.target.generation charge = 1 := if_pos ⟨h, rfl⟩

theorem ofGeneration_of_ne {generation : IndexGenerationId}
    (h : generation ≠ charge.target.generation) : ofGeneration index generation charge = 0 :=
  if_neg fun hboth => h hboth.2.symm

/-- A charge weighs nothing in another index. -/
theorem weights_of_ne (h : charge.target.logicalIndex ≠ index) :
    inIndex index charge = 0 ∧ bytesIn index charge = 0 ∧
      (∀ member, ofMember index member charge = 0) ∧
      ∀ generation, ofGeneration index generation charge = 0 := by
  simp [inIndex, bytesIn, ofMember, ofGeneration, h]

end Weights

/-- An index has a charge exactly when it weighs something. -/
theorem inIndex_pos {charges : Charges} {index : LogicalIndex} :
    0 < tally charges (inIndex index) ↔
      ∃ id charge, charges.lookup id = some charge ∧ charge.target.logicalIndex = index := by
  rw [tally_pos]
  simp [inIndex, Nat.pos_iff_ne_zero]

/-- A counter entry: present exactly when it is positive. -/
def counter (n : Nat) : Option Nat := if n = 0 then none else some n

/-! ## §2. The usage of one index. -/

/-- The usage of `index` is what the charges determine; the bytes when `exact` holds. -/
structure UsageOk (exact : Prop) (charges : Charges) (index : LogicalIndex)
    (usage : Option IndexUsage) : Prop where
  present : usage.isSome = true ↔ 0 < tally charges (inIndex index)
  bytes : exact → (usage.map (·.retainedBytes)).getD 0 = tally charges (bytesIn index)
  members : ∀ member, usage.bind (·.members.lookup member) =
    counter (tally charges (ofMember index member))
  generations : ∀ generation,
    (usage.bind (·.generations.lookup generation)).map (·.operations) =
      counter (tally charges (ofGeneration index generation))

/-- The bounds under which the counters of `index` are exact. -/
structure Fits (exact : Prop) (charges : Charges) (index : LogicalIndex) : Prop where
  members : ∀ member, tally charges (ofMember index member) < 2 ^ 32
  bytes : exact → tally charges (bytesIn index) ≤ U64_MAX

section Usage

variable {exact : Prop} {charges : Charges} {index : LogicalIndex} {usage : Option IndexUsage}
  {id : QueuedOperationId} {charge : Charge}

theorem getD_counter (n : Nat) : (counter n).getD 0 = n := by
  unfold counter
  split
  case isTrue h => exact h.symm
  case isFalse => rfl

theorem usageOk_empty (exact : Prop) (index : LogicalIndex) : UsageOk exact ∅ index none := by
  constructor <;> simp [tally, counter]

section

variable (h : UsageOk exact charges index usage)
include h

/-- A charge of another index leaves the usage right. -/
theorem UsageOk.congr {charges' : Charges}
    (hindex : tally charges' (inIndex index) = tally charges (inIndex index))
    (hbytes : tally charges' (bytesIn index) = tally charges (bytesIn index))
    (hmember : ∀ m, tally charges' (ofMember index m) = tally charges (ofMember index m))
    (hgeneration : ∀ g,
      tally charges' (ofGeneration index g) = tally charges (ofGeneration index g)) :
    UsageOk exact charges' index usage where
  present := by rw [hindex]; exact h.present
  bytes hexact := by rw [hbytes]; exact h.bytes hexact
  members member := by rw [hmember]; exact h.members member
  generations generation := by rw [hgeneration]; exact h.generations generation

/-- The lookups of a missing usage are those of the empty one. -/
theorem UsageOk.members_getD (member : Member) :
    (usage.getD .empty).members.lookup member =
      counter (tally charges (ofMember index member)) := by
  rw [← h.members member]
  cases usage <;> rfl

theorem UsageOk.generations_getD
    (generation : IndexGenerationId) :
    ((usage.getD .empty).generations.lookup generation).map (·.operations) =
      counter (tally charges (ofGeneration index generation)) := by
  rw [← h.generations generation]
  cases usage <;> rfl

theorem UsageOk.bytes_getD (hexact : exact) :
    (usage.getD .empty).retainedBytes = tally charges (bytesIn index) := by
  rw [← h.bytes hexact]
  cases usage <;> rfl

/-- The usage of a retained charge has its generation. -/
theorem UsageOk.of_charge (hlookup : charges.lookup id = some charge)
    (hindex : charge.target.logicalIndex = index) : ∃ current work, usage = some current ∧
      current.generations.lookup charge.target.generation = some work ∧ work.operations =
        1 + tally (charges.erase id) (ofGeneration index charge.target.generation) := by
  obtain ⟨current, rfl⟩ := isSome_iff_exists.mp
    (h.present.mpr (inIndex_pos.mpr ⟨id, charge, hlookup, hindex⟩))
  have hgeneration := h.generations charge.target.generation
  rw [tally_erase hlookup, ofGeneration_self hindex, counter, if_neg (by omega),
    bind_some] at hgeneration
  obtain ⟨work, hwork, hoperations⟩ := map_eq_some_iff.mp hgeneration
  exact ⟨current, work, rfl, hwork, hoperations⟩

/-- **One more charge.** -/
theorem UsageOk.add (hnew : charges.lookup id = none)
    (hindex : charge.target.logicalIndex = index)
    (hfits : Fits exact (charges.insert id charge) index) (latest : Nat) :
    UsageOk exact (charges.insert id charge) index
      (some ((usage.getD .empty).add charge.member charge.charged latest)) where
  present := by
    rw [tally_insert_new hnew, inIndex_self hindex]
    exact iff_of_true rfl (by omega)
  bytes hexact := by
    have hmax := hfits.bytes hexact
    rw [tally_insert_new hnew, bytesIn_self hindex] at hmax ⊢
    show saturatingAdd (usage.getD .empty).retainedBytes charge.charged = _
    rw [h.bytes_getD hexact, saturatingAdd]
    omega
  members member := by
    have hbound := hfits.members member
    rw [tally_insert_new hnew] at hbound ⊢
    show ((usage.getD .empty).members.insert charge.member _).lookup member = _
    rw [lookup_insert_eq, h.members_getD, h.members_getD]
    by_cases hmember : member = charge.member
    · subst hmember
      rw [ofMember_self hindex] at hbound ⊢
      rw [if_pos rfl, getD_counter, refIncrement, Nat.mod_eq_of_lt (by omega), Nat.add_comm,
        counter, if_neg (by omega)]
    · rw [if_neg hmember, ofMember_of_ne hmember, Nat.zero_add]
  generations generation := by
    rw [tally_insert_new hnew]
    show (((usage.getD .empty).generations.insert charge.target.generation _).lookup
      generation).map _ = _
    rw [lookup_insert_eq]
    by_cases hgeneration : generation = charge.target.generation
    · subst hgeneration
      have hadmitted : ∀ work latest, (GenerationUsage.admitted work latest).operations =
          (work.map (·.operations)).getD 0 + 1 := fun work _ => by cases work <;> rfl
      rw [if_pos rfl, map_some, hadmitted]
      show some (Option.getD (((usage.getD .empty).generations.lookup
        charge.target.generation).map _) 0 + 1) = _
      rw [h.generations_getD, getD_counter, ofGeneration_self hindex, Nat.add_comm, counter,
        if_neg (by omega)]
    · rw [if_neg hgeneration, ofGeneration_of_ne hgeneration, Nat.zero_add]
      exact h.generations_getD generation

end

/-- An index without a charge weighs nothing. -/
theorem tally_eq_zero_of_inIndex {weight : Charge → Nat}
    (hle : ∀ charge, charge.target.logicalIndex ≠ index → weight charge = 0)
    (h : tally charges (inIndex index) = 0) : tally charges weight = 0 := by
  by_contra hpos
  obtain ⟨id, charge, hlookup, hweight⟩ := tally_pos.mp (Nat.pos_of_ne_zero hpos)
  have hindex : charge.target.logicalIndex = index := by
    by_contra hne
    simp [hle charge hne] at hweight
  exact (inIndex_pos.mpr ⟨id, charge, hlookup, hindex⟩).ne' h

/-- An index has no generation left exactly when it has no charge left. -/
theorem generations_nil_iff {left : IndexUsage}
    (h : ∀ generation, (left.generations.lookup generation).map (·.operations) =
      counter (tally charges (ofGeneration index generation))) :
    left.generations.keys = [] ↔ tally charges (inIndex index) = 0 := by
  rw [List.eq_nil_iff_forall_not_mem]
  constructor
  · intro hnone
    by_contra hpos
    obtain ⟨id, charge, hlookup, hindex⟩ := inIndex_pos.mp (Nat.pos_of_ne_zero hpos)
    have hcount : 0 < tally charges (ofGeneration index charge.target.generation) :=
      tally_pos.mpr ⟨id, charge, hlookup, by rw [ofGeneration_self hindex]; exact Nat.one_pos⟩
    have hmissing := hnone charge.target.generation
    have hgeneration := h charge.target.generation
    rw [mem_keys_iff, not_exists] at hmissing
    rw [eq_none_iff_forall_ne_some.mpr hmissing, counter, if_neg (by omega)] at hgeneration
    cases hgeneration
  · intro hzero generation hmem
    obtain ⟨work, hwork⟩ := (mem_keys_iff _ _).mp hmem
    have hgeneration := h generation
    have hcount : tally charges (ofGeneration index generation) = 0 :=
      tally_eq_zero_of_inIndex (fun charge hne => (weights_of_ne hne).2.2.2 generation) hzero
    rw [hwork, hcount] at hgeneration
    cases hgeneration

theorem members_without (current : IndexUsage) (member : Member) (charged left : Nat)
    (work : GenerationUsage) (hleft : 1 + left < 2 ^ 32) (other : Member) :
    (current.without member charged (1 + left) work).members.lookup other =
      if other = member then counter left else current.members.lookup other := by
  have hdecrement : refDecrement (1 + left) = left := by
    rw [refDecrement]
    omega
  simp only [IndexUsage.without, hdecrement, lookup_ite, counter]

theorem generations_without (current : IndexUsage) (member : Member) (charged references left : Nat)
    (work : GenerationUsage) (hwork : work.operations = 1 + left) (other : IndexGenerationId) :
    ((current.without member charged references work).generations.lookup other).map
        (·.operations) =
      if other = member.1 then counter left
      else (current.generations.lookup other).map (·.operations) := by
  have hdecrement : work.operations - 1 = left := by omega
  simp only [IndexUsage.without, hdecrement, lookup_ite, counter]
  split_ifs <;> rfl

/-- **One charge less**: the two lookups of the release succeed. -/
theorem UsageOk.remove (h : UsageOk exact charges index usage)
    (hlookup : charges.lookup id = some charge) (hindex : charge.target.logicalIndex = index)
    (hfits : tally charges (ofMember index charge.member) < 2 ^ 32) :
    ∃ current left, usage = some current ∧
      current.remove charge.member charge.charged = .ok left ∧
      UsageOk exact (charges.erase id) index
        (if left.generations.keys = [] then none else some left) := by
  obtain ⟨current, work, rfl, hwork, hoperations⟩ := h.of_charge hlookup hindex
  have hmembers := h.members
  have hgenerations := h.generations
  simp only [bind_some, tally_erase hlookup] at hmembers hgenerations
  have hmember := hmembers charge.member
  rw [tally_erase hlookup] at hfits
  rw [ofMember_self hindex] at hfits hmember
  rw [counter, if_neg (by omega)] at hmember
  have hwork' : current.generations.lookup charge.member.1 = some work := hwork
  refine ⟨current, current.without charge.member charge.charged
    (1 + tally (charges.erase id) (ofMember index charge.member)) work, rfl, ?_, ?_⟩
  · rw [IndexUsage.remove, hmember, hwork']
    rfl
  -- What is left is right member by member and generation by generation.
  generalize hleft : current.without charge.member charge.charged _ work = left
  have hleftMembers : ∀ member, left.members.lookup member =
      counter (tally (charges.erase id) (ofMember index member)) := by
    intro member
    rw [← hleft, members_without _ _ _ _ _ hfits]
    split_ifs with hmem
    · rw [hmem]
    · rw [hmembers, ofMember_of_ne hmem, Nat.zero_add]
  have hleftGenerations : ∀ generation, (left.generations.lookup generation).map (·.operations) =
      counter (tally (charges.erase id) (ofGeneration index generation)) := by
    intro generation
    have hfst : charge.member.1 = charge.target.generation := rfl
    rw [← hleft, generations_without _ _ _ _ _ _ hoperations, hfst]
    split_ifs with hgen
    · rw [hgen]
    · rw [hgenerations, ofGeneration_of_ne hgen, Nat.zero_add]
  have hempty := generations_nil_iff hleftGenerations
  split_ifs with hnil
  · have hzero := hempty.mp hnil
    have hnone : ∀ {weight : Charge → Nat},
        (∀ charge, charge.target.logicalIndex ≠ index → weight charge = 0) →
          tally (charges.erase id) weight = 0 := fun hle => tally_eq_zero_of_inIndex hle hzero
    refine ⟨?_, ?_, ?_, ?_⟩
    · simp [hzero]
    · intro _
      exact (hnone fun charge hne => (weights_of_ne hne).2.1).symm
    · intro member
      rw [hnone fun charge hne => (weights_of_ne hne).2.2.1 member]
      rfl
    · intro generation
      rw [hnone fun charge hne => (weights_of_ne hne).2.2.2 generation]
      rfl
  · refine ⟨?_, ?_, ?_, ?_⟩
    · rw [hempty] at hnil
      exact iff_of_true rfl (Nat.pos_of_ne_zero hnil)
    · intro hexact
      have hbytes := h.bytes hexact
      rw [tally_erase hlookup, bytesIn_self hindex] at hbytes
      rw [← hleft]
      simp only [map_some, getD_some, IndexUsage.without] at hbytes ⊢
      omega
    · intro member
      rw [bind_some]
      exact hleftMembers member
    · intro generation
      exact hleftGenerations generation

end Usage

/-! ## §3. The whole ledger. -/

/-- **The accounting invariant.** -/
structure Accounts (tracked : LogicalIndex → Prop) (s : BacklogState) : Prop where
  usage : ∀ index, UsageOk (tracked index) s.charges index (s.indexes.lookup index)
  fits : ∀ index member, tally s.charges (ofMember index member) < 2 ^ 32
  uncertain : ∀ target id, id ∈ (s.uncertain.lookup target).getD ∅ ↔
    ∃ charge, s.charges.lookup id = some charge ∧ charge.target = target ∧
      charge.state.isUncertain = true
  nonempty : ∀ target, s.uncertain.lookup target ≠ some ∅

/-- The bounds under which every aggregate is exact. -/
def FitsAll (tracked : LogicalIndex → Prop) (charges : Charges) : Prop :=
  ∀ index, Fits (tracked index) charges index

section Ledger

variable {tracked : LogicalIndex → Prop} {s t : BacklogState} {id : QueuedOperationId}
  {charge : Charge}

theorem accounts_empty (tracked : LogicalIndex → Prop) : Accounts tracked .empty where
  usage index := usageOk_empty _ index
  fits index member := Nat.two_pow_pos 32
  uncertain target id := by simp [empty]
  nonempty target := by simp [empty]

/-- Only three fields of the state are accounts. -/
theorem Accounts.congr (h : Accounts tracked s) (hindexes : t.indexes = s.indexes)
    (hcharges : t.charges = s.charges) (huncertain : t.uncertain = s.uncertain) :
    Accounts tracked t := by
  refine ⟨?_, ?_, ?_, ?_⟩
  · rw [hindexes, hcharges]
    exact h.usage
  · rw [hcharges]
    exact h.fits
  · rw [hcharges, huncertain]
    exact h.uncertain
  · rw [huncertain]
    exact h.nonempty

theorem accounts_count (h : Accounts tracked s) (event : Counted) :
    Accounts tracked (s.count event) := h.congr rfl rfl rfl

/-- Counting an acknowledgement moves no account. -/
theorem countAcknowledgement_fields (s : BacklogState) (id : QueuedOperationId)
    (released : ChargeState) (now : Instant) :
    (s.countAcknowledgement id released now).indexes = s.indexes ∧
      (s.countAcknowledgement id released now).charges = s.charges ∧
      (s.countAcknowledgement id released now).uncertain = s.uncertain := by
  rcases released with _ | (_ | _) | ⟨_ | ⟨_ | _, _⟩, _⟩ <;> exact ⟨rfl, rfl, rfl⟩

theorem accounts_countAcknowledgement (h : Accounts tracked s) (id : QueuedOperationId)
    (released : ChargeState) (now : Instant) :
    Accounts tracked (s.countAcknowledgement id released now) := by
  obtain ⟨hindexes, hcharges, huncertain⟩ := countAcknowledgement_fields s id released now
  exact h.congr hindexes hcharges huncertain

/-- **`insert` keeps the accounts** while the bounds hold. -/
theorem Accounts.inserted (h : Accounts tracked s) {a : OperationCharge} {state : ChargeState}
    (hnew : s.charges.lookup a.id = none) (hstate : state.isUncertain = false)
    (hfits : FitsAll tracked (s.inserted a state).charges) :
    Accounts tracked (s.inserted a state) where
  usage index := by
    by_cases hindex : a.target.logicalIndex = index
    · subst hindex
      show UsageOk _ _ _ ((s.indexes.insert _ _).lookup _)
      rw [AList.lookup_insert]
      have hindex : (entering a state).target.logicalIndex = a.target.logicalIndex :=
        rfl
      exact (h.usage _).add hnew hindex (hfits _) _
    · rw [lookup_inserted_of_ne hindex]
      show UsageOk _ (s.charges.insert a.id (entering a state)) index _
      have hne : (entering a state).target.logicalIndex ≠ index := hindex
      obtain ⟨hindex, hbytes, hmember, hgeneration⟩ := weights_of_ne hne
      refine (h.usage index).congr ?_ ?_ ?_ ?_ <;> intros <;> rw [tally_insert_new hnew] <;>
        simp [hindex, hbytes, hmember, hgeneration]
  fits index := (hfits index).members
  uncertain target other := by
    have hold := h.uncertain target other
    show other ∈ (s.uncertain.lookup target).getD ∅ ↔ ∃ charge,
      (s.charges.insert a.id (entering a state)).lookup other = some charge ∧ _
    rw [hold, lookup_insert_eq]
    by_cases hid : other = a.id
    · subst hid
      simp [hnew, entering, hstate]
    · rw [if_neg hid]
  nonempty := h.nonempty

/-- **`readmit` finds its generation and keeps the accounts.** -/
theorem Accounts.readmit (h : Accounts tracked s) (hlookup : s.charges.lookup id = some charge) :
    ∃ t, s.readmit id = .ok t ∧ Accounts tracked t ∧ t.charges = s.charges := by
  have husage := h.usage charge.target.logicalIndex
  obtain ⟨usage, work, husageEq, hwork, -⟩ := husage.of_charge hlookup rfl
  rw [husageEq] at husage
  have hreadmitted : s.readmit id = .ok { s with
      admissions := s.admissions + 1
      indexes := s.indexes.insert charge.target.logicalIndex { usage with
        generations := usage.generations.insert charge.target.generation
          ⟨work.operations, s.admissions + 1⟩ } } := by
    simp only [BacklogState.readmit, hlookup, husageEq, hwork]
    rfl
  refine ⟨_, hreadmitted, ⟨?_, h.fits, h.uncertain, h.nonempty⟩, rfl⟩
  intro index
  rw [lookup_insert_eq]
  split_ifs with hindex
  · rw [hindex]
    -- The latest admission of a generation is no account.
    refine ⟨husage.present, husage.bytes, husage.members, fun other => ?_⟩
    rw [← husage.generations other]
    simp only [bind_some, lookup_insert_eq]
    split_ifs with hother
    · rw [hother, hwork]
      rfl
    · rfl
  · exact h.usage index

/-- `forget_uncertain` finds an indexed charge and removes exactly it. -/
theorem forgetUncertain_spec {target : QueueTarget} (hmem : id ∈ (s.uncertain.lookup target).getD ∅)
    (hnonempty : ∀ target, s.uncertain.lookup target ≠ some ∅) :
    ∃ uncertain, s.forgetUncertain target id = .ok { s with uncertain := uncertain } ∧
      (∀ target' id', id' ∈ (uncertain.lookup target').getD ∅ ↔
        id' ∈ (s.uncertain.lookup target').getD ∅ ∧ ¬ (target' = target ∧ id' = id)) ∧
      ∀ target', uncertain.lookup target' ≠ some ∅ := by
  cases hlookup : s.uncertain.lookup target with
  | none =>
    rw [hlookup] at hmem
    exact absurd hmem (Finset.notMem_empty id)
  | some ids =>
    rw [hlookup, getD_some] at hmem
    refine ⟨if ids.erase id = ∅ then s.uncertain.erase target
      else s.uncertain.insert target (ids.erase id), ?_, ?_, ?_⟩
    · simp only [forgetUncertain, hlookup]
      rw [if_pos hmem]
      rfl
    · intro target' id'
      -- An emptied set is the same as a missing one.
      have hread : (if ids.erase id = ∅ then none else some (ids.erase id)).getD ∅ =
          ids.erase id := by
        split_ifs with hempty
        · exact hempty.symm
        · rfl
      rw [lookup_ite]
      by_cases htarget : target' = target
      · rw [if_pos htarget, hread, htarget, hlookup]
        simp [and_comm]
      · simp [htarget]
    · intro target'
      rw [lookup_ite]
      split_ifs with htarget hempty
      · simp
      · simpa using hempty
      · exact hnonempty target'

/-- **Reindexing one charge** makes its entry what `after` says and keeps every other. -/
theorem reindex_spec {target : QueueTarget} {before : Bool} (after : Bool)
    (hbefore : id ∈ (s.uncertain.lookup target).getD ∅ ↔ before = true)
    (hnonempty : ∀ target, s.uncertain.lookup target ≠ some ∅) :
    ∃ uncertain, s.reindex target id before after = .ok { s with uncertain := uncertain } ∧
      (∀ target' id', id' ∈ (uncertain.lookup target').getD ∅ ↔
        if target' = target ∧ id' = id then after = true
        else id' ∈ (s.uncertain.lookup target').getD ∅) ∧
      ∀ target', uncertain.lookup target' ≠ some ∅ := by
  have hsame : before = after → ∀ target' id', id' ∈ (s.uncertain.lookup target').getD ∅ ↔
      if target' = target ∧ id' = id then after = true
      else id' ∈ (s.uncertain.lookup target').getD ∅ := by
    intro heq target' id'
    split
    case isTrue hboth => rw [hboth.1, hboth.2, hbefore, heq]
    case isFalse => rfl
  cases before with
  | false =>
    cases after with
    | false => exact ⟨s.uncertain, rfl, hsame rfl, hnonempty⟩
    | true =>
      refine ⟨_, rfl, ?_, ?_⟩
      · intro target' id'
        by_cases htarget : target' = target
        · subst htarget
          by_cases hid : id' = id <;> simp [hid]
        · simp [htarget]
      · intro target'
        rw [lookup_insert_eq]
        split
        · simp
        · exact hnonempty target'
  | true =>
    cases after with
    | true => exact ⟨s.uncertain, rfl, hsame rfl, hnonempty⟩
    | false =>
      obtain ⟨uncertain, hforget, hmem, hempty⟩ :=
        forgetUncertain_spec (hbefore.mpr rfl) hnonempty
      refine ⟨uncertain, hforget, ?_, hempty⟩
      intro target' id'
      rw [hmem]
      by_cases hboth : target' = target ∧ id' = id <;> simp [hboth]

/-- A retained charge is indexed under its own target exactly when it is uncertain. -/
theorem Accounts.indexed_iff (h : Accounts tracked s)
    (hlookup : s.charges.lookup id = some charge) :
    id ∈ (s.uncertain.lookup charge.target).getD ∅ ↔ charge.state.isUncertain = true := by
  rw [h.uncertain, hlookup]
  simp

/-- **`transition` keeps the accounts**, the uncertain index included. -/
theorem Accounts.transition (h : Accounts tracked s) (id : QueuedOperationId)
    (next : ChargeState → ChargeState) :
    ∃ t, s.transition id next = .ok (t, (s.charges.lookup id).map (·.state)) ∧
      Accounts tracked t ∧
      ∀ other, (t.charges.lookup other).isSome = (s.charges.lookup other).isSome := by
  cases hlookup : s.charges.lookup id with
  | none => exact ⟨s, by simp only [BacklogState.transition, hlookup]; rfl, h, fun _ => rfl⟩
  | some charge =>
    obtain ⟨uncertain, hreindex, hmem, hempty⟩ :=
      reindex_spec (s := { s with charges := s.charges.insert id (charge.move next) })
        (next charge.state).isUncertain (h.indexed_iff hlookup) h.nonempty
    have htransition : s.transition id next = .ok ({ s with
        charges := s.charges.insert id (charge.move next), uncertain := uncertain },
        some charge.state) := by
      simp only [BacklogState.transition, hlookup, hreindex]
      rfl
    refine ⟨_, htransition, ⟨?_, ?_, ?_, hempty⟩, ?_⟩
    · intro index
      refine (h.usage index).congr ?_ ?_ ?_ ?_ <;> intros <;> exact tally_update hlookup rfl
    · intro index member
      exact lt_of_eq_of_lt (tally_update hlookup rfl) (h.fits index member)
    · intro target other
      rw [hmem, h.uncertain]
      by_cases hother : other = id
      · subst hother
        rw [hlookup]
        by_cases htarget : target = charge.target
        · subst htarget
          simp [Charge.move]
        · simp [Charge.move, htarget, Ne.symm htarget]
      · simp [hother]
    · intro other
      rw [lookup_insert_eq]
      split_ifs with hother
      · rw [hother, hlookup]
        rfl
      · rfl

/-- **`release` finds what it needs and keeps the accounts.** -/
theorem Accounts.release (h : Accounts tracked s) (id : QueuedOperationId) :
    ∃ t, s.release id = .ok (t, s.charges.lookup id) ∧ Accounts tracked t ∧
      ∀ other, t.charges.lookup other = if other = id then none else s.charges.lookup other := by
  cases hlookup : s.charges.lookup id with
  | none =>
    refine ⟨s, by simp only [BacklogState.release, hlookup]; rfl, h, ?_⟩
    intro other
    split_ifs with hother
    · rw [hother, hlookup]
    · rfl
  | some charge =>
    obtain ⟨uncertain, hreindex, hmem, hempty⟩ :=
      reindex_spec (s := { s with charges := s.charges.erase id }) false
        (h.indexed_iff hlookup) h.nonempty
    have hforget : forgetIfUncertain { s with charges := s.charges.erase id } charge
        id = .ok { s with charges := s.charges.erase id, uncertain := uncertain } := by
      rw [← hreindex, forgetIfUncertain]
      cases charge.state.isUncertain <;> rfl
    obtain ⟨current, left, hcurrent, hremove, hleft⟩ :=
      (h.usage charge.target.logicalIndex).remove hlookup rfl
        (h.fits charge.target.logicalIndex charge.member)
    have hrelease : s.release id = .ok ({ s with
        charges := s.charges.erase id
        uncertain := uncertain
        indexes := if left.generations.keys = [] then
            s.indexes.erase charge.target.logicalIndex
          else s.indexes.insert charge.target.logicalIndex left }, some charge) := by
      simp only [BacklogState.release, hlookup, hforget, bind, Except.bind, hcurrent, hremove]
      rfl
    refine ⟨_, hrelease, ⟨?_, ?_, ?_, hempty⟩, lookup_erase_eq s.charges id⟩
    · intro index
      rw [lookup_ite]
      by_cases hindex : index = charge.target.logicalIndex
      · rwa [if_pos hindex, hindex]
      · rw [if_neg hindex]
        obtain ⟨hin, hbytes, hmember, hgeneration⟩ := weights_of_ne (Ne.symm hindex)
        refine (h.usage index).congr ?_ ?_ ?_ ?_ <;> intros <;> rw [tally_erase hlookup] <;>
          simp [hin, hbytes, hmember, hgeneration]
    · intro index member
      have hbefore := h.fits index member
      rw [tally_erase hlookup] at hbefore
      exact lt_of_le_of_lt (Nat.le_add_left _ _) hbefore
    · intro target other
      rw [hmem, h.uncertain]
      by_cases hother : other = id
      · subst hother
        rw [hlookup]
        by_cases htarget : target = charge.target
        · simp [htarget]
        · simp [Ne.symm htarget]
      · simp [hother]

/-! ## §4. Entering charges. -/

/-- `t` is `s` after some new charges entered, one at a time, with their outcomes counted. -/
inductive Entered (s : BacklogState) : BacklogState → Prop where
  | refl : Entered s s
  | enter {t u : BacklogState} {a : OperationCharge} {state : ChargeState} :
      Entered s t → t.charges.lookup a.id = none → state.isUncertain = false →
      u.indexes = (t.inserted a state).indexes → u.charges = (t.inserted a state).charges →
      u.uncertain = t.uncertain → Entered s u

/-- The bounds on a grown charge map hold before the last charge entered. -/
theorem FitsAll.of_insert {charges : Charges} (hnew : charges.lookup id = none)
    (h : FitsAll tracked (charges.insert id charge)) : FitsAll tracked charges := by
  intro index
  refine ⟨?_, ?_⟩
  · intro member
    have hafter := (h index).members member
    rw [tally_insert_new hnew] at hafter
    omega
  · intro hexact
    have hafter := (h index).bytes hexact
    rw [tally_insert_new hnew] at hafter
    omega

/-- **Entering charges keeps the accounts** when the bounds hold at the end. -/
theorem Entered.accounts (h : Entered s t) (hs : Accounts tracked s)
    (hfits : FitsAll tracked t.charges) : Accounts tracked t := by
  induction h with
  | refl => exact hs
  | enter _ hnew hstate hindexes hcharges huncertain ih =>
    rw [hcharges] at hfits
    have hbefore := ih (FitsAll.of_insert hnew hfits)
    exact (hbefore.inserted hnew hstate hfits).congr hindexes hcharges huncertain

end Ledger

end HelixDb.Backlog
