/-
  HelixDb.Relational.ValueOrder

  **THE THREE RELATIONS ON VALUES AGREE**: predicate equality, the total order of
  sorting and grouping, and what a grouping key feeds a hasher.

  The total order is the lexicographic order of a code: a mark for the kind of
  value, then its parts; numbers are one token, NaN above every number.  So it
  is reflexive, swaps with its arguments and is transitive, at any nesting.

    • `Value.codedAt` — the order is the order of the codes;
    • `Value.equals_of_totalCmp` — what the order identifies is equal, unless a
      null or a NaN takes part;
    • `Value.hashWrites_eq` — one group, one hash.
-/
import HelixDb.Relational.Value
import HelixDb.Lib.CompareCode

namespace HelixDb.Relational

open HelixDb.Lib
open Ordering (eq_then then_assoc then_eq_eq)
open List (compareLex_cons_cons cons_append singleton_append append_assoc length)
open HelixDb.Property (CanonicalNumber CanonicalFinite)

namespace Value

/-! ## §1. The code of a value. -/

/-- A token: a number of its own, or the mark of a kind before a number. -/
abbrev Token := ℕ ×ₗ WithTop ExtRat

/-- A token that is not a number. -/
def mark (n : ℕ) : Token := toLex (n, 0)

theorem compare_token {m n : ℕ} (x y : WithTop ExtRat) (h : m ≠ n) :
    compare (toLex (m, x) : Token) (toLex (n, y)) = compare m n := by
  rcases lt_or_gt_of_ne h with h | h
  · rw [compare_lt_iff_lt.mpr h, compare_lt_iff_lt]
    exact Prod.Lex.toLex_lt_toLex.mpr (.inl h)
  · rw [compare_gt_iff_gt.mpr h, compare_gt_iff_gt]
    exact Prod.Lex.toLex_lt_toLex.mpr (.inl h)

theorem compare_mark (m n : ℕ) : compare (mark m) (mark n) = compare m n :=
  compare_eq_compare (fun _ _ h => Prod.Lex.toLex_lt_toLex.mpr (.inl h)) m n

theorem compare_number (x y : WithTop ExtRat) :
    compare (toLex (7, x) : Token) (toLex (7, y)) = compare x y :=
  compare_eq_compare (f := fun z => (toLex (7, z) : Token))
    (fun _ _ h => Prod.Lex.toLex_lt_toLex.mpr (.inr ⟨rfl, h⟩)) x y

/-- The number a value stands for; NaN is above every number. -/
def numberKey (value : Value) : WithTop ExtRat :=
  value.number.elim ⊤ fun number => (number.value : WithTop ExtRat)

/-- The key of a list of naturals. -/
def codeNats : List ℕ → List Token := codeList (mark 1) (mark 0) fun n => [mark n]

/-- The key of a string. -/
def codeString (text : String) : List Token := codeNats ((utf8Bytes text).map UInt8.toNat)

/-- The key of a list of IDs. -/
def codeIds (ids : List UInt64) : List Token := codeNats (ids.map UInt64.toNat)

mutual

/-- The key of a value. -/
def code : Value → List Token
  | .map entries => mark 0 :: mark entries.length ::
      (codeList (mark 1) (mark 0) codeString (entries.map Prod.fst) ++ codeEntries entries)
  | .entity (.node id) => [mark 1, mark id.toNat]
  | .entity (.relationship id) => [mark 2, mark id.toNat]
  | .list values => mark 3 :: codeAll values
  | .path p => mark 4 :: (codeIds p.nodes ++ codeIds p.relationships)
  | .string text => mark 5 :: codeString text
  | .boolean value => [mark 6, mark value.toNat]
  | .integer value => [toLex (7, numberKey (.integer value))]
  | .float bits => [toLex (7, numberKey (.float bits))]
  | .null => [mark 8]

/-- The key of a list. -/
def codeAll : List Value → List Token
  | [] => [mark 0]
  | value :: values => mark 1 :: (code value ++ codeAll values)

/-- The key of the values of a map. -/
def codeEntries : List (String × Value) → List Token
  | [] => []
  | (_, value) :: entries => code value ++ codeEntries entries

end

/-! ## §2. Parts. -/

theorem codedAt_nats (ns : List ℕ) : CodedAt compare (List.compareLex compare) codeNats ns := by
  apply codedAt_codeList (by rw [compare_mark]; rfl)
  intro n _ m rest rest'
  show List.compareLex compare (mark n :: rest) (mark m :: rest') = _
  rw [compareLex_cons_cons, compare_mark]

/-- Names compare as their bytes. -/
theorem codedAt_string (text : String) :
    CodedAt compare (fun a b : String => cmp (utf8Bytes a) (utf8Bytes b)) codeString text := by
  intro other rest rest'
  show List.compareLex compare (codeNats _ ++ rest) (codeNats _ ++ rest') =
    (cmp (utf8Bytes text) (utf8Bytes other)).then _
  rw [codedAt_nats, compareLex_map, cmp_eq_compareLex]
  congr 2
  funext a b
  exact compare_eq_cmp (fun _ _ h => UInt8.lt_iff_toNat_lt.mp h) a b

theorem codedAt_keys (keys : List String) :
    CodedAt compare (List.compareLex fun a b : String => cmp (utf8Bytes a) (utf8Bytes b))
      (codeList (mark 1) (mark 0) codeString) keys :=
  codedAt_codeList (by rw [compare_mark]; rfl) fun text _ => codedAt_string text

/-! ## §3. The order of the codes. -/

theorem exists_code_head (a : Value) : ∃ x tail, code a = toLex (a.rank, x) :: tail := by
  cases a with
  | entity value => cases value <;> exact ⟨_, _, by rw [code]; rfl⟩
  | _ => exact ⟨_, _, by rw [code]; rfl⟩

/-- Two values of one kind. -/
inductive SameKind : Value → Value → Prop
  | map (as bs : List (String × Value)) : SameKind (.map as) (.map bs)
  | node (id other : UInt64) : SameKind (.entity (.node id)) (.entity (.node other))
  | relationship (id other : UInt64) :
      SameKind (.entity (.relationship id)) (.entity (.relationship other))
  | list (as bs : List Value) : SameKind (.list as) (.list bs)
  | path (p q : Path) : SameKind (.path p) (.path q)
  | string (text other : String) : SameKind (.string text) (.string other)
  | boolean (value other : Bool) : SameKind (.boolean value) (.boolean other)
  | null : SameKind .null .null
  | number {a b : Value} (ha : a.isNumber = true) (hb : b.isNumber = true) : SameKind a b

theorem sameKind_of_rank {a b : Value} (h : a.rank = b.rank) : SameKind a b := by
  rcases a with _ | _ | _ | _ | _ | _ | _ | (_ | _) | _ <;>
    rcases b with _ | _ | _ | _ | _ | _ | _ | (_ | _) | _ <;>
    first | (constructor <;> rfl) | cases h

theorem totalCmp_of_rank_ne {a b : Value} (h : a.rank ≠ b.rank) :
    a.totalCmp b = compare a.rank b.rank := by
  cases a <;> cases b <;>
    first
      | exact absurd rfl h
      | (simp only [totalCmp, isNumber]; rfl)
      | skip
  rename_i e f
  cases e <;> cases f <;> first | exact absurd rfl h | (simp only [totalCmp]; rfl)

/-- Values of different kinds are told apart by their first token. -/
theorem coded_of_rank_ne {a b : Value} (h : a.rank ≠ b.rank) (rest rest' : List Token) :
    List.compareLex compare (code a ++ rest) (code b ++ rest') =
      (a.totalCmp b).then (List.compareLex compare rest rest') := by
  obtain ⟨x, tail, ha⟩ := exists_code_head a
  obtain ⟨y, tail', hb⟩ := exists_code_head b
  rw [ha, hb, cons_append, cons_append, compareLex_cons_cons, compare_token x y h,
    totalCmp_of_rank_ne h]
  rcases lt_or_gt_of_ne h with h | h
  · rw [compare_lt_iff_lt.mpr h]
    rfl
  · rw [compare_gt_iff_gt.mpr h]
    rfl

/-- Numbers compare as their keys. -/
theorem totalNumberCmp_eq {a b : Value} (ha : a.isNumber = true) (hb : b.isNumber = true) :
    totalNumberCmp a b = compare a.numberKey b.numberKey := by
  have hcompare : ∀ m n : CanonicalNumber,
      compare m n = compare (m.value : WithTop ExtRat) (n.value : WithTop ExtRat) := by
    intro m n
    rw [CanonicalNumber.compare_eq, ← cmp_eq_compare]
    exact (WithTop.coe_strictMono.cmp_map_eq _ _).symm
  unfold totalNumberCmp numberKey numberCmp
  cases hna : a.number with
  | some m =>
    cases hnb : b.number with
    | some n => exact hcompare m n
    | none =>
      -- only a NaN is a number without a value
      obtain ⟨bits, rfl⟩ : ∃ bits, b = .float bits := by
        cases b <;> simp_all [isNumber, number]
      have hlt : compare (m.value : WithTop ExtRat) ⊤ = .lt :=
        compare_lt_iff_lt.mpr (WithTop.coe_lt_top _)
      cases a with
      | integer value => exact hlt.symm
      | float bits' =>
        have hnan : (Value.float bits').isNan = false := by
          rw [number] at hna
          simp [isNan, hna]
        simp only [hnan, Bool.false_and, Bool.false_eq_true, if_false, Bool.not_false, if_true]
        exact hlt.symm
      | _ => simp [number] at hna
  | none =>
    obtain ⟨bits, rfl⟩ : ∃ bits, a = .float bits := by
      cases a <;> simp_all [isNumber, number]
    have hnan : (Value.float bits).isNan = true := by
      rw [number] at hna
      simp [isNan, hna]
    cases hnb : b.number with
    | some n =>
      have hgt : compare (⊤ : WithTop ExtRat) (n.value : WithTop ExtRat) = .gt :=
        compare_gt_iff_gt.mpr (WithTop.coe_lt_top _)
      cases b with
      | integer value =>
        simp only [hnan, Bool.not_true, Bool.false_eq_true, if_false]
        exact hgt.symm
      | float bits' =>
        have hnan' : (Value.float bits').isNan = false := by
          rw [number] at hnb
          simp [isNan, hnb]
        simp only [hnan, hnan', Bool.and_false, Bool.false_eq_true, if_false, Bool.not_true]
        exact hgt.symm
      | _ => simp [number] at hnb
    | none =>
      obtain ⟨bits', rfl⟩ : ∃ bits, b = .float bits := by
        cases b <;> simp_all [isNumber, number]
      have hnan' : (Value.float bits').isNan = true := by
        rw [number] at hnb
        simp [isNan, hnb]
      simp only [hnan, hnan', Bool.and_self, if_true]
      exact (compare_eq_iff_eq.mpr rfl).symm

/-- Values of one kind share their first token. -/
theorem coded_tail {n : ℕ} {c : Ordering} {tail tail' rest rest' : List Token}
    (h : List.compareLex compare (tail ++ rest) (tail' ++ rest') =
      c.then (List.compareLex compare rest rest')) :
    List.compareLex compare (mark n :: tail ++ rest) (mark n :: tail' ++ rest') =
      c.then (List.compareLex compare rest rest') := by
  rw [cons_append, cons_append, compareLex_cons_cons, compare_eq_iff_eq.mpr rfl,
    eq_then]
  exact h

theorem compare_id (a b : UInt64) : compare a b = compare a.toNat b.toNat := by
  simp only [compare, compareOfLessAndEq, UInt64.lt_iff_toNat_lt, ← UInt64.toNat_inj]

theorem coded_mark (m n : ℕ) (rest rest' : List Token) :
    List.compareLex compare ([mark m] ++ rest) ([mark n] ++ rest') =
      (compare m n).then (List.compareLex compare rest rest') := by
  rw [singleton_append, singleton_append, compareLex_cons_cons, compare_mark]

theorem isNumber_cases {a : Value} (h : a.isNumber = true) :
    (∃ value, a = .integer value) ∨ ∃ bits, a = .float bits := by
  cases a with
  | integer value => exact .inl ⟨value, rfl⟩
  | float bits => exact .inr ⟨bits, rfl⟩
  | _ => cases h

theorem code_number {a : Value} (h : a.isNumber = true) : code a = [toLex (7, a.numberKey)] := by
  obtain ⟨value, rfl⟩ | ⟨bits, rfl⟩ := isNumber_cases h <;> rw [code]

theorem totalCmp_number {a b : Value} (ha : a.isNumber = true) (hb : b.isNumber = true) :
    a.totalCmp b = totalNumberCmp a b := by
  obtain ⟨value, rfl⟩ | ⟨bits, rfl⟩ := isNumber_cases ha <;>
    obtain ⟨other, rfl⟩ | ⟨others, rfl⟩ := isNumber_cases hb <;> simp [totalCmp, isNumber]

mutual

/-- **The total order is the order of the codes.** -/
theorem codedAt (a : Value) : CodedAt compare totalCmp code a := by
  intro b rest rest'
  by_cases h : a.rank = b.rank
  swap
  · exact coded_of_rank_ne h rest rest'
  cases sameKind_of_rank h with
  | map as bs =>
    rw [code, code, totalCmp]
    apply coded_tail
    rw [cons_append, cons_append, compareLex_cons_cons, compare_mark]
    by_cases hlength : as.length = bs.length
    · rw [append_assoc, append_assoc, codedAt_keys, compareLex_map, cmp_eq_compareLex,
        compareLex_map, codedAt_entries as bs hlength, then_assoc, then_assoc]
      congr 3
      funext a b
      exact cmp_decidable _ _ _ _
    · -- maps of different sizes are told apart by their sizes
      rcases lt_or_gt_of_ne hlength with hlt | hgt
      · rw [compare_lt_iff_lt.mpr hlt]
        rfl
      · rw [compare_gt_iff_gt.mpr hgt]
        rfl
  | list as bs =>
    rw [code, code, totalCmp]
    exact coded_tail (codedAt_all as bs rest rest')
  | node id other | relationship id other =>
    rw [code, code, totalCmp, entityCmp, compare_id]
    exact coded_tail (coded_mark id.toNat other.toNat rest rest')
  | path p q =>
    rw [code, code, totalCmp]
    apply coded_tail
    rw [append_assoc, append_assoc]
    unfold codeIds
    rw [codedAt_nats, codedAt_nats, cmp_eq_compareLex, cmp_eq_compareLex, then_assoc]
    have hcompare : (cmp : ℕ → ℕ → Ordering) = compare := by
      funext m n
      exact cmp_eq_compare m n
    rw [hcompare]
  | string text other =>
    rw [code, code, totalCmp]
    exact coded_tail (codedAt_string text other rest rest')
  | boolean value other =>
    rw [code, code, totalCmp]
    have hcompare : compare value other = compare value.toNat other.toNat := by
      cases value <;> cases other <;> rfl
    rw [hcompare]
    exact coded_tail (coded_mark value.toNat other.toNat rest rest')
  | number ha hb =>
    rw [code_number ha, code_number hb, totalCmp_number ha hb, singleton_append, singleton_append,
      compareLex_cons_cons, compare_number, totalNumberCmp_eq ha hb]
  | null =>
    rw [code, coded_mark]
    simp [totalCmp, isNumber]

theorem codedAt_all : ∀ (as bs : List Value) (rest rest' : List Token),
    List.compareLex compare (codeAll as ++ rest) (codeAll bs ++ rest') =
      (totalCmpAll as bs).then (List.compareLex compare rest rest')
  | [], [], rest, rest' => by
    have hnil : totalCmpAll [] [] = .eq := by simp [totalCmpAll]
    rw [hnil, codeAll, coded_mark]
    rfl
  | [], b :: bs, rest, rest' => by
    have hless : totalCmpAll [] (b :: bs) = .lt := by
      simp [totalCmpAll, Nat.compare_eq_lt]
    rw [hless, codeAll, codeAll, cons_append, cons_append,
      compareLex_cons_cons, compare_mark]
    rfl
  | a :: as, [], rest, rest' => by
    have hmore : totalCmpAll (a :: as) [] = .gt := by
      simp [totalCmpAll, Nat.compare_eq_gt]
    rw [hmore, codeAll, codeAll, cons_append, cons_append,
      compareLex_cons_cons, compare_mark]
    rfl
  | a :: as, b :: bs, rest, rest' => by
    rw [codeAll, codeAll, totalCmpAll]
    apply coded_tail
    rw [append_assoc, append_assoc, codedAt a b, codedAt_all as bs,
      then_assoc]

theorem codedAt_entries : ∀ (as bs : List (String × Value)), as.length = bs.length →
    ∀ rest rest' : List Token,
    List.compareLex compare (codeEntries as ++ rest) (codeEntries bs ++ rest') =
      (totalCmpEntries as bs).then (List.compareLex compare rest rest')
  | [], [], _, rest, rest' => by
    have hnil : totalCmpEntries [] [] = .eq := by simp [totalCmpEntries]
    rw [hnil, codeEntries]
    rfl
  | (_, a) :: as, (_, b) :: bs, h, rest, rest' => by
    rw [codeEntries, codeEntries, totalCmpEntries, append_assoc, append_assoc,
      codedAt a b, codedAt_entries as bs (Nat.succ.inj h), then_assoc]

end

/-- The total order is reflexive, swaps with its arguments and is transitive. -/
instance instTransCmpTotalCmp : Std.TransCmp totalCmp := transCmp_of_coded codedAt

/-! ## §4. What the order identifies. -/

theorem sameKind_of_totalCmp {a b : Value} (h : a.totalCmp b = .eq) : SameKind a b := by
  refine sameKind_of_rank ?_
  by_contra hne
  rw [totalCmp_of_rank_ne hne, compare_eq_iff_eq] at h
  exact hne h

theorem keys_eq_of_cmp {as bs : List (String × Value)}
    (h : cmp (as.map fun entry => utf8Bytes entry.1) (bs.map fun entry => utf8Bytes entry.1) =
      .eq) : as.map Prod.fst = bs.map Prod.fst := by
  have hbytes := eq_of_cmp_eq h
  have hmap : ∀ entries : List (String × Value), (entries.map fun entry => utf8Bytes entry.1) =
      (entries.map Prod.fst).map utf8Bytes := fun entries => by rw [List.map_map]; rfl
  rw [hmap, hmap] at hbytes
  exact utf8Bytes_injective.list_map hbytes

theorem map_of_totalCmp {as bs : List (String × Value)}
    (h : (Value.map as).totalCmp (.map bs) = .eq) :
    as.map Prod.fst = bs.map Prod.fst ∧ totalCmpEntries as bs = .eq := by
  rw [totalCmp, then_eq_eq, then_eq_eq] at h
  exact ⟨keys_eq_of_cmp h.2.1, h.2.2⟩

theorem path_of_totalCmp {p q : Path} (h : (Value.path p).totalCmp (.path q) = .eq) :
    p.nodes = q.nodes ∧ p.relationships = q.relationships := by
  have hids : ∀ {as bs : List UInt64}, cmp (as.map UInt64.toNat) (bs.map UInt64.toNat) = .eq →
      as = bs := by
    intro as bs hcmp
    have hnats := eq_of_cmp_eq hcmp
    have hinjective : Function.Injective UInt64.toNat := fun a b hab => UInt64.toNat_inj.mp hab
    exact hinjective.list_map hnats
  rw [totalCmp, then_eq_eq] at h
  exact ⟨hids h.1, hids h.2⟩

theorem string_of_totalCmp {a b : String} (h : (Value.string a).totalCmp (.string b) = .eq) :
    a = b := by
  rw [totalCmp] at h
  exact utf8Bytes_injective (eq_of_cmp_eq h)

theorem entity_of_totalCmp {a b : Entity} (h : (Value.entity a).totalCmp (.entity b) = .eq) :
    a = b := by
  rw [totalCmp] at h
  cases a <;> cases b <;> simp only [entityCmp] at h
  · rw [compare_id, compare_eq_iff_eq] at h
    rw [UInt64.toNat_inj.mp h]
  · cases h
  · cases h
  · rw [compare_id, compare_eq_iff_eq] at h
    rw [UInt64.toNat_inj.mp h]

/-- Numbers in one group have one canonical form, or are both NaN. -/
theorem number_of_totalCmp {a b : Value} (ha : a.isNumber = true) (hb : b.isNumber = true)
    (h : totalNumberCmp a b = .eq) : a.number = b.number := by
  rw [totalNumberCmp_eq ha hb, compare_eq_iff_eq] at h
  unfold numberKey at h
  cases hna : a.number with
  | none =>
    cases hnb : b.number with
    | none => rfl
    | some n =>
      rw [hna, hnb] at h
      exact absurd h.symm (WithTop.coe_ne_top)
  | some m =>
    cases hnb : b.number with
    | none =>
      rw [hna, hnb] at h
      exact absurd h (WithTop.coe_ne_top)
    | some n =>
      rw [hna, hnb] at h
      rw [CanonicalNumber.value_injective (WithTop.coe_injective h)]

/-! ## §5. Back to predicate equality. -/

mutual

/-- No null and no NaN, at any depth. -/
def isDefinite : Value → Bool
  | .null => false
  | .float bits => !(Value.float bits).isNan
  | .list values => allDefinite values
  | .map entries => allDefiniteEntries entries
  | .boolean _ | .integer _ | .string _ | .entity _ | .path _ => true

/-- No element is or holds `null`. -/
def allDefinite : List Value → Bool
  | [] => true
  | value :: values => isDefinite value && allDefinite values

/-- No entry is or holds `null`. -/
def allDefiniteEntries : List (String × Value) → Bool
  | [] => true
  | (_, value) :: entries => isDefinite value && allDefiniteEntries entries

end

theorem equals_number {a b : Value} (ha : a.isNumber = true) (hb : b.isNumber = true)
    (hdefinite : a.number.isSome = true) (h : totalNumberCmp a b = .eq) :
    (a.numberCmp b == some .eq) = true := by
  have hnumber := number_of_totalCmp ha hb h
  obtain ⟨m, hm⟩ := Option.isSome_iff_exists.mp hdefinite
  unfold numberCmp
  rw [← hnumber, hm]
  show (some (compare m m) == some .eq) = true
  rw [CanonicalNumber.compare_eq, cmp_self_eq_eq]
  rfl

theorem number_of_isDefinite {a : Value} (ha : a.isNumber = true) (h : a.isDefinite = true) :
    a.number.isSome = true := by
  obtain ⟨value, rfl⟩ | ⟨bits, rfl⟩ := isNumber_cases ha
  · rfl
  · rw [isDefinite, isNan] at h
    rw [number]
    simpa using h

mutual

/-- **What the order identifies is equal**, unless a null or a NaN takes part. -/
theorem equals_of_totalCmp {a b : Value} (hdefinite : a.isDefinite = true)
    (h : a.totalCmp b = .eq) : a.equals b = some true := by
  cases sameKind_of_totalCmp h with
  | list as bs =>
    rw [totalCmp] at h
    rw [isDefinite] at hdefinite
    obtain ⟨hlength, hequal⟩ := equalsAll_of_totalCmp hdefinite h
    rw [equals, if_neg (not_not_intro hlength), hequal]
  | map as bs =>
    rw [isDefinite] at hdefinite
    obtain ⟨hkeys, hentries⟩ := map_of_totalCmp h
    have hlength : as.length = bs.length := by simpa using congrArg length hkeys
    rw [equals, if_neg (not_not_intro hkeys),
      equalsEntries_of_totalCmp hlength hdefinite hentries]
  | node id other | relationship id other =>
    rw [entity_of_totalCmp h, equals, beq_self_eq_true]
  | path p q =>
    obtain ⟨hnodes, hrels⟩ := path_of_totalCmp h
    rw [equals, hnodes, hrels, beq_self_eq_true, beq_self_eq_true]
    rfl
  | string text other => rw [string_of_totalCmp h, equals, beq_self_eq_true]
  | boolean value other =>
    rw [totalCmp, compare_eq_iff_eq] at h
    rw [h, equals, beq_self_eq_true]
  | number ha hb =>
    rw [totalCmp_number ha hb] at h
    have hequal := equals_number ha hb (number_of_isDefinite ha hdefinite) h
    obtain ⟨value, rfl⟩ | ⟨bits, rfl⟩ := isNumber_cases ha <;>
      obtain ⟨other, rfl⟩ | ⟨others, rfl⟩ := isNumber_cases hb <;> simp [equals, isNumber, hequal]
  | null =>
    simp [isDefinite] at hdefinite

theorem equalsAll_of_totalCmp : ∀ {as bs : List Value}, allDefinite as = true →
    totalCmpAll as bs = .eq → as.length = bs.length ∧ equalsAll as bs = some true
  | [], [], _, _ => ⟨rfl, by simp [equalsAll]⟩
  | [], b :: bs, _, h => by simp [totalCmpAll] at h
  | a :: as, [], _, h => by simp [totalCmpAll] at h
  | a :: as, b :: bs, hdefinite, h => by
    rw [allDefinite, Bool.and_eq_true] at hdefinite
    rw [totalCmpAll, then_eq_eq] at h
    obtain ⟨hlength, htail⟩ := equalsAll_of_totalCmp hdefinite.2 h.2
    refine ⟨congrArg Nat.succ hlength, ?_⟩
    rw [equalsAll, equals_of_totalCmp hdefinite.1 h.1, htail]
    rfl

theorem equalsEntries_of_totalCmp : ∀ {as bs : List (String × Value)}, as.length = bs.length →
    allDefiniteEntries as = true → totalCmpEntries as bs = .eq → equalsEntries as bs = some true
  | [], [], _, _, _ => by simp [equalsEntries]
  | (_, a) :: as, (_, b) :: bs, hlength, hdefinite, h => by
    rw [allDefiniteEntries, Bool.and_eq_true] at hdefinite
    rw [totalCmpEntries, then_eq_eq] at h
    rw [equalsEntries, equals_of_totalCmp hdefinite.1 h.1,
      equalsEntries_of_totalCmp (Nat.succ.inj hlength) hdefinite.2 h.2]
    rfl

end

/-! ## §6. Hashing. -/

/-- One call on a hasher. -/
inductive HashWrite where
  | u8 (value : UInt8)
  | i16 (value : Int)
  | u64 (value : Nat)
  | isize (value : Int)
  | usize (value : Nat)
  | str (bytes : Bytes)
  | u64s (values : List UInt64)

/-- The derived hash of a finite number. -/
def hashFinite (finite : CanonicalFinite) : List HashWrite :=
  [.i16 finite.exponent, .u64 finite.oddSignificand, .i16 finite.floorLog2,
    .u64 finite.normalizedSignificand]

/-- The derived hash of an enumeration: its discriminant, then its fields. -/
def hashNumber : Option CanonicalNumber → List HashWrite
  | none => [.isize 0]
  | some .negativeInfinity => [.isize 1, .isize 0]
  | some (.negativeFinite finite) => [.isize 1, .isize 1] ++ hashFinite finite
  | some .zero => [.isize 1, .isize 2]
  | some (.positiveFinite finite) => [.isize 1, .isize 3] ++ hashFinite finite
  | some .positiveInfinity => [.isize 1, .isize 4]

/-- The derived hash of an entity. -/
def hashEntity : Entity → List HashWrite
  | .node id => [.isize 0, .u64 id.toNat]
  | .relationship id => [.isize 1, .u64 id.toNat]

/-- The hash of a list of IDs. -/
def hashIds (ids : List UInt64) : List HashWrite := [.usize ids.length, .u64s ids]

mutual

/-- `hash_value`: what a grouping key feeds a hasher, call by call. -/
def hashWrites : Value → List HashWrite
  | .integer value => .u8 0 :: hashNumber (some (CanonicalNumber.fromI64 value))
  | .float bits => .u8 0 :: hashNumber (CanonicalNumber.fromF64 bits)
  | .null => [.u8 1]
  | .boolean value => [.u8 2, .u8 (if value then 1 else 0)]
  | .string text => [.u8 3, .str (utf8Bytes text)]
  | .entity value => .u8 4 :: hashEntity value
  | .path p => .u8 5 :: (hashIds p.nodes ++ hashIds p.relationships)
  | .list values => .u8 6 :: .usize values.length :: hashAll values
  | .map entries => .u8 7 :: .usize entries.length :: hashEntries entries

/-- The elements of a list. -/
def hashAll : List Value → List HashWrite
  | [] => []
  | value :: values => hashWrites value ++ hashAll values

/-- The entries of a map, each behind its key. -/
def hashEntries : List (String × Value) → List HashWrite
  | [] => []
  | (key, value) :: entries => .str (utf8Bytes key) :: (hashWrites value ++ hashEntries entries)

end

theorem hashWrites_number {a : Value} (h : a.isNumber = true) :
    hashWrites a = .u8 0 :: hashNumber a.number := by
  obtain ⟨value, rfl⟩ | ⟨bits, rfl⟩ := isNumber_cases h <;> rw [hashWrites, number]

mutual

/-- **One group, one hash.** -/
theorem hashWrites_eq {a b : Value} (h : a.totalCmp b = .eq) : hashWrites a = hashWrites b := by
  cases sameKind_of_totalCmp h with
  | list as bs =>
    rw [totalCmp] at h
    obtain ⟨hlength, hwrites⟩ := hashAll_eq h
    rw [hashWrites, hashWrites, hlength, hwrites]
  | map as bs =>
    obtain ⟨hkeys, hentries⟩ := map_of_totalCmp h
    have hlength : as.length = bs.length := by simpa using congrArg length hkeys
    rw [hashWrites, hashWrites, hlength, hashEntries_eq hkeys hentries]
  | node id other | relationship id other => rw [entity_of_totalCmp h]
  | path p q =>
    obtain ⟨hnodes, hrels⟩ := path_of_totalCmp h
    rw [hashWrites, hashWrites, hnodes, hrels]
  | string text other => rw [string_of_totalCmp h]
  | boolean value other =>
    rw [totalCmp, compare_eq_iff_eq] at h
    rw [h]
  | number ha hb =>
    rw [totalCmp_number ha hb] at h
    rw [hashWrites_number ha, hashWrites_number hb, number_of_totalCmp ha hb h]
  | null => rfl

theorem hashAll_eq : ∀ {as bs : List Value}, totalCmpAll as bs = .eq →
    as.length = bs.length ∧ hashAll as = hashAll bs
  | [], [], _ => ⟨rfl, rfl⟩
  | [], b :: bs, h => by simp [totalCmpAll] at h
  | a :: as, [], h => by simp [totalCmpAll] at h
  | a :: as, b :: bs, h => by
    rw [totalCmpAll, then_eq_eq] at h
    obtain ⟨hlength, htail⟩ := hashAll_eq h.2
    refine ⟨congrArg Nat.succ hlength, ?_⟩
    rw [hashAll, hashAll, hashWrites_eq h.1, htail]

theorem hashEntries_eq : ∀ {as bs : List (String × Value)}, as.map Prod.fst = bs.map Prod.fst →
    totalCmpEntries as bs = .eq → hashEntries as = hashEntries bs
  | [], [], _, _ => rfl
  | (key, a) :: as, (key', b) :: bs, hkeys, h => by
    rw [totalCmpEntries, then_eq_eq] at h
    obtain ⟨hkey, hrest⟩ := List.cons.inj hkeys
    have hkey : key = key' := hkey
    rw [hashEntries, hashEntries, hkey, hashWrites_eq h.1, hashEntries_eq hrest h.2]

end

/-- **The three relations agree**, for all values. -/
theorem totalCmp_equals_hash_agree :
    (∀ a : Value, a.totalCmp a = .eq) ∧
    (∀ a b : Value, a.totalCmp b = (b.totalCmp a).swap) ∧
    (∀ a b c : Value, (a.totalCmp b).isLE = true → (b.totalCmp c).isLE = true →
      (a.totalCmp c).isLE = true) ∧
    (∀ a b : Value, a.equals b = some true → a.totalCmp b = .eq) ∧
    (∀ a b : Value, a.isDefinite = true → b.isDefinite = true → a.totalCmp b = .eq →
      a.equals b = some true) ∧
    ∀ a b : Value, a.totalCmp b = .eq → hashWrites a = hashWrites b := by
  refine ⟨fun a => Std.ReflCmp.compare_self, fun a b => Std.OrientedCmp.eq_swap,
    fun a b c => Std.TransCmp.isLE_trans, fun a b => totalCmp_eq_of_equals, ?_,
    fun a b => hashWrites_eq⟩
  intro a b hdefinite _ h
  exact equals_of_totalCmp hdefinite h

end Value

end HelixDb.Relational
