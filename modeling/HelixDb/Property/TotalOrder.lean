/-
  HelixDb.Property.TotalOrder

  **THE TOTAL ORDER OF PROPERTY VALUES**, `total_order`.

  Kinds of values are ranked; numbers compare by canonical form, NaN above every
  number and by kind and bits.  Inside float arrays elements compare by
  `total_cmp`, which tells the zeros apart although `eq_value` does not.

  The order is the lexicographic order of a code, so it is a total preorder at any
  nesting.

    • `PropertyValue.codedAt` — the order is the order of the codes,
    • `PropertyValue.totalOrder_eq_iff` — which equal values the order identifies,
    • `PropertyValue.totalOrder_laws` — the laws together.
-/
import HelixDb.Lib.CompareCode
import HelixDb.Property.Compare

namespace HelixDb.Property

open HelixDb.Lib
open List (compareLex)
open CanonicalNumber (fromProperty f64Bits)

variable {a b : PropertyValue}

namespace PropertyValue

/-! ## §1. The order. -/

/-- The place of a value's kind. -/
def rank : PropertyValue → Nat
  | .null => 0
  | .bool _ => 1
  | .i64 _ | .f64 _ | .f32 _ => 2
  | .dateTime _ => 3
  | .string _ => 4
  | .bytes _ => 5
  | .i64Array _ => 6
  | .f64Array _ => 7
  | .f32Array _ => 8
  | .stringArray _ => 9
  | .array _ => 10
  | .object _ => 11

/-- `numeric_bits`; only a number has them. -/
def numericBits : PropertyValue → Nat × Nat
  | .i64 value => (0, value.toUInt64.toNat)
  | .f64 bits => (1, bits.toNat)
  | .f32 bits => (2, bits.toNat)
  | _ => (0, 0)

/-- The order of two numbers. -/
def numericOrder (self other : PropertyValue) : Ordering :=
  match fromProperty self, fromProperty other with
  | some left, some right => Ord.compare left right
  | none, none => (Ord.compare self.numericBits.1 other.numericBits.1).then
      (Ord.compare self.numericBits.2 other.numericBits.2)
  | none, some _ => .gt
  | some _, none => .lt

/-- The integer `total_cmp` compares floats of a width by: negative floats descend. -/
def totalCmpKey (width bits : Nat) : Int :=
  if bits < 2 ^ (width - 1) then bits else -1 - ((bits - 2 ^ (width - 1) : Nat) : Int)

/-- Strings by their bytes. -/
def compareText (left right : String) : Ordering := cmp (utf8Bytes left) (utf8Bytes right)

mutual

/-- The order of two values of one rank. -/
def withinRank (self other : PropertyValue) : Ordering :=
  match self, other with
  | .null, .null => .eq
  | .bool left, .bool right => Ord.compare left.toNat right.toNat
  | .dateTime left, .dateTime right => cmp left.toInt right.toInt
  | .string left, .string right => compareText left right
  | .bytes left, .bytes right => cmp left right
  | .i64Array left, .i64Array right =>
    compareLex (fun a b => Ord.compare a.toInt b.toInt) left right
  | .f64Array left, .f64Array right => compareLex (fun a b =>
    Ord.compare (totalCmpKey 64 a.toNat) (totalCmpKey 64 b.toNat)) left right
  | .f32Array left, .f32Array right => compareLex (fun a b =>
    Ord.compare (totalCmpKey 32 a.toNat) (totalCmpKey 32 b.toNat)) left right
  | .stringArray left, .stringArray right => compareLex compareText left right
  | .array left, .array right => totalCmpSlices left right
  | .object left, .object right => totalCmpObjects left right
  | self, other =>
    if self.isNumeric && other.isNumeric then numericOrder self other else .eq

/-- `total_cmp_slices`: the first difference, then the lengths. -/
def totalCmpSlices : List PropertyValue → List PropertyValue → Ordering
  | [], [] => .eq
  | [], _ :: _ => .lt
  | _ :: _, [] => .gt
  | a :: as, b :: bs =>
    ((Ord.compare a.rank b.rank).then (withinRank a b)).then (totalCmpSlices as bs)

/-- `total_cmp_objects`: entries by key, then by value. -/
def totalCmpObjects : List (String × PropertyValue) → List (String × PropertyValue) → Ordering
  | [], [] => .eq
  | [], _ :: _ => .lt
  | _ :: _, [] => .gt
  | (k, a) :: as, (l, b) :: bs =>
    ((compareText k l).then ((Ord.compare a.rank b.rank).then (withinRank a b))).then
      (totalCmpObjects as bs)

end

/-- Total deterministic ordering used by full-scan `ORDER BY`. -/
def totalOrder (self other : PropertyValue) : Ordering :=
  (Ord.compare self.rank other.rank).then (withinRank self other)

/-! ## §2. Codes. -/

/-- A token: an integer, or an extended rational. -/
abbrev Token := ℤ ⊕ₗ ExtRat

/-- A token that is not a number. -/
def mark (n : ℤ) : Token := toLex (.inl n)

/-- A token that is a number. -/
def number (x : ExtRat) : Token := toLex (.inr x)

theorem compare_mark (m n : ℤ) : Ord.compare (mark m) (mark n) = Ord.compare m n :=
  compare_eq_compare Sum.Lex.inl_strictMono m n

theorem compare_number (x y : ExtRat) : Ord.compare (number x) (number y) = cmp x y :=
  compare_eq_cmp Sum.Lex.inr_strictMono x y

/-- The code of a sequence of integers. -/
def codeInts : List ℤ → List Token := codeList (mark 1) (mark 0) fun n => [mark n]

/-- The key of bytes. -/
def codeBytes (bytes : Bytes) : List Token := codeInts (bytes.map fun b => (b.toNat : ℤ))

/-- The key of a string. -/
def codeText (text : String) : List Token := codeBytes (utf8Bytes text)

/-- The code of a number: its value, or the kind and the bits of a NaN. -/
def codeNumber (value : PropertyValue) : List Token :=
  match fromProperty value with
  | some canonical => [mark 0, number canonical.value]
  | none => [mark 1, mark value.numericBits.1, mark value.numericBits.2]

mutual

/-- The code of a value behind the mark of its rank. -/
def codeTail : PropertyValue → List Token
  | .null => []
  | .bool value => [mark value.toNat]
  | .i64 value => codeNumber (.i64 value)
  | .f64 bits => codeNumber (.f64 bits)
  | .f32 bits => codeNumber (.f32 bits)
  | .dateTime millis => [mark millis.toInt]
  | .string text => codeText text
  | .bytes value => codeBytes value
  | .i64Array values => codeInts (values.map Int64.toInt)
  | .f64Array values => codeInts (values.map fun bits => totalCmpKey 64 bits.toNat)
  | .f32Array values => codeInts (values.map fun bits => totalCmpKey 32 bits.toNat)
  | .stringArray values => codeList (mark 1) (mark 0) codeText values
  | .array values => codeAll values
  | .object entries => codeEntries entries

/-- The key of an array. -/
def codeAll : List PropertyValue → List Token
  | [] => [mark 0]
  | value :: values => mark 1 :: mark value.rank :: (codeTail value ++ codeAll values)

/-- The key of an object. -/
def codeEntries : List (String × PropertyValue) → List Token
  | [] => [mark 0]
  | (key, value) :: entries =>
    mark 1 :: (codeText key ++ mark value.rank :: (codeTail value ++ codeEntries entries))

end

/-- The key of a value: its rank and what follows. -/
def code (value : PropertyValue) : List Token := mark value.rank :: codeTail value

theorem codedAt_ints (ns : List ℤ) :
    CodedAt Ord.compare (compareLex Ord.compare) codeInts ns := by
  apply codedAt_codeList (by rw [compare_mark]; rfl)
  intro n _ m rest rest'
  show compareLex Ord.compare (mark n :: rest) (mark m :: rest') = _
  rw [List.compareLex_cons_cons, compare_mark]

theorem toNat_strictMono : StrictMono fun byte : UInt8 => (byte.toNat : ℤ) :=
  fun _ _ h => Int.ofNat_lt.mpr (UInt8.lt_iff_toNat_lt.mp h)

theorem codedAt_bytes (bytes : Bytes) : CodedAt Ord.compare cmp codeBytes bytes := by
  intro other rest rest'
  unfold codeBytes
  rw [codedAt_ints, compareLex_map, cmp_eq_compareLex]
  congr 2
  funext a b
  exact compare_eq_cmp toNat_strictMono a b

theorem codedAt_text (text : String) : CodedAt Ord.compare compareText codeText text :=
  fun other => codedAt_bytes (utf8Bytes text) (utf8Bytes other)

theorem compare_rank (m n : ℕ) : Ord.compare (m : ℤ) (n : ℤ) = Ord.compare m n :=
  compare_eq_compare Nat.strictMono_cast m n

theorem coded_mark (m n : ℤ) (rest rest' : List Token) :
    compareLex Ord.compare (mark m :: rest) (mark n :: rest') =
      (Ord.compare m n).then (compareLex Ord.compare rest rest') := by
  rw [List.compareLex_cons_cons, compare_mark]

/-- Values of different rank are told apart by the mark. -/
theorem coded_of_tail {rest rest' : List Token}
    (htail : a.rank = b.rank → compareLex Ord.compare (codeTail a ++ rest)
      (codeTail b ++ rest') = (withinRank a b).then (compareLex Ord.compare rest rest')) :
    compareLex Ord.compare (code a ++ rest) (code b ++ rest') =
      (a.totalOrder b).then (compareLex Ord.compare rest rest') := by
  show compareLex Ord.compare (mark a.rank :: (codeTail a ++ rest))
    (mark b.rank :: (codeTail b ++ rest')) = _
  rw [coded_mark, compare_rank, totalOrder, Ordering.then_assoc]
  by_cases hrank : a.rank = b.rank
  · rw [htail hrank]
  · rcases lt_or_gt_of_ne hrank with h | h
    · rw [compare_lt_iff_lt.mpr h]
      rfl
    · rw [compare_gt_iff_gt.mpr h]
      rfl

/-- Numbers compare as their codes. -/
theorem coded_number (a b : PropertyValue) (rest rest' : List Token) :
    compareLex Ord.compare (codeNumber a ++ rest) (codeNumber b ++ rest') =
      (numericOrder a b).then (compareLex Ord.compare rest rest') := by
  unfold codeNumber numericOrder
  cases fromProperty a with
  | some left =>
    cases fromProperty b with
    | some right =>
      show compareLex Ord.compare (mark 0 :: number left.value :: rest)
        (mark 0 :: number right.value :: rest') = (Ord.compare left right).then _
      rw [coded_mark, List.compareLex_cons_cons, compare_number, CanonicalNumber.compare_eq]
      rfl
    | none => exact coded_mark 0 1 _ _
  | none =>
    cases fromProperty b with
    | some right => exact coded_mark 1 0 _ _
    | none =>
      show compareLex Ord.compare (mark 1 :: mark a.numericBits.1 :: mark a.numericBits.2 ::
        rest) (mark 1 :: mark b.numericBits.1 :: mark b.numericBits.2 :: rest') = _
      rw [coded_mark, coded_mark, coded_mark, compare_rank, compare_rank, Ordering.then_assoc]
      rfl

theorem coded_of_numeric {rest rest' : List Token}
    (ha : a.isNumeric = true) (hrank : a.rank = b.rank) :
    compareLex Ord.compare (codeTail a ++ rest) (codeTail b ++ rest') =
      (withinRank a b).then (compareLex Ord.compare rest rest') := by
  have hcode : ∀ v : PropertyValue, v.isNumeric = true → codeTail v = codeNumber v := by
    intro v hv
    cases v <;> first | rfl | cases hv
  have hb : b.isNumeric = true := by
    cases a <;> cases ha <;> cases b <;> first | rfl | cases hrank
  have horder : withinRank a b = numericOrder a b := by
    cases a <;> cases ha <;> cases b <;> first | rfl | cases hb
  rw [hcode a ha, hcode b hb, horder, coded_number]

theorem sameKind_of_rank (ha : ¬ a.isNumeric = true) (h : a.rank = b.rank) :
    SameKind a b := by
  cases a <;> cases b <;> first | constructor | exact absurd rfl ha | cases h

theorem totalCmpSlices_cons (a b : PropertyValue) (as bs : List PropertyValue) :
    totalCmpSlices (a :: as) (b :: bs) = (totalOrder a b).then (totalCmpSlices as bs) := by
  rw [totalCmpSlices, totalOrder]

theorem totalCmpObjects_cons (k l : String) (a b : PropertyValue)
    (as bs : List (String × PropertyValue)) :
    totalCmpObjects ((k, a) :: as) ((l, b) :: bs) =
      ((compareText k l).then (totalOrder a b)).then (totalCmpObjects as bs) := by
  rw [totalCmpObjects, totalOrder]

mutual

/-- **The total order is the order of the codes.** -/
theorem codedAt (a : PropertyValue) : CodedAt Ord.compare totalOrder code a := by
  intro b rest rest'
  refine coded_of_tail fun hrank => ?_
  by_cases hnumeric : a.isNumeric = true
  · exact coded_of_numeric hnumeric hrank
  cases sameKind_of_rank hnumeric hrank with
  | null => rfl
  | bool value other =>
    refine (coded_mark _ _ rest rest').trans ?_
    rw [compare_rank, withinRank]
  | dateTime value other =>
    refine (coded_mark _ _ rest rest').trans ?_
    rw [withinRank, cmp_eq_compare]
  | string value other => exact codedAt_text value other rest rest'
  | bytes value other => exact codedAt_bytes value other rest rest'
  | i64Array values others | f64Array values others | f32Array values others =>
    refine (codedAt_ints _ _ rest rest').trans ?_
    rw [compareLex_map]
    rfl
  | stringArray values others =>
    exact codedAt_codeList (by rw [compare_mark]; rfl) (fun text _ => codedAt_text text)
      others rest rest'
  | array values others => exact coded_all values others rest rest'
  | object entries others => exact coded_entries entries others rest rest'
  | _ => exact absurd rfl hnumeric

theorem coded_all : ∀ (as bs : List PropertyValue) (rest rest' : List Token),
    compareLex Ord.compare (codeAll as ++ rest) (codeAll bs ++ rest') =
      (totalCmpSlices as bs).then (compareLex Ord.compare rest rest')
  | [], [], rest, rest' => coded_mark 0 0 rest rest'
  | [], b :: bs, rest, rest' => coded_mark 0 1 rest _
  | a :: as, [], rest, rest' => coded_mark 1 0 _ rest'
  | a :: as, b :: bs, rest, rest' => by
    have hvalue := codedAt a b (codeAll as ++ rest) (codeAll bs ++ rest')
    rw [coded_all as bs] at hvalue
    rw [totalCmpSlices_cons, Ordering.then_assoc, ← hvalue, codeAll, codeAll]
    simp only [List.cons_append, List.append_assoc]
    exact coded_mark 1 1 _ _

theorem coded_entries : ∀ (as bs : List (String × PropertyValue)) (rest rest' : List Token),
    compareLex Ord.compare (codeEntries as ++ rest) (codeEntries bs ++ rest') =
      (totalCmpObjects as bs).then (compareLex Ord.compare rest rest')
  | [], [], rest, rest' => coded_mark 0 0 rest rest'
  | [], b :: bs, rest, rest' => coded_mark 0 1 rest _
  | a :: as, [], rest, rest' => coded_mark 1 0 _ rest'
  | (k, a) :: as, (l, b) :: bs, rest, rest' => by
    have hvalue := codedAt a b (codeEntries as ++ rest) (codeEntries bs ++ rest')
    rw [coded_entries as bs] at hvalue
    have hkey := codedAt_text k l (code a ++ (codeEntries as ++ rest))
      (code b ++ (codeEntries bs ++ rest'))
    rw [totalCmpObjects_cons, Ordering.then_assoc, Ordering.then_assoc, ← hvalue, ← hkey,
      codeEntries, codeEntries]
    simp only [List.cons_append, List.append_assoc]
    exact coded_mark 1 1 _ _

end

instance : Std.TransCmp totalOrder := transCmp_of_coded codedAt

/-! ## §3. Agreement with `compare` and `eq_value`. -/

/-- **The order agrees with `compare`.** -/
theorem totalOrder_of_compare {o : Ordering} (h : a.compare b = some o) :
    a.totalOrder b = o := by
  unfold compare at h
  split_ifs at h with hnumeric
  · obtain ⟨ha, hb⟩ := Bool.and_eq_true_iff.mp hnumeric
    have horder : a.totalOrder b = numericOrder a b := by
      cases a <;> cases ha <;> cases b <;> first | rfl | cases hb
    rw [horder, numericOrder]
    split at h
    · next left right hleft hright =>
        rw [hleft, hright]
        exact Option.some.inj h
    · cases h
  · cases a <;> cases b <;> cases h <;> rfl

/-- Floats inside float arrays, at any depth, that stand at one place have the same bits. -/
def floatsAgree : PropertyValue → PropertyValue → Bool
  | .f64Array left, .f64Array right => left == right
  | .f32Array left, .f32Array right => left == right
  | .array left, .array right => floatsAgreeAll left right
  | .object left, .object right => floatsAgreeEntries left right
  | _, _ => true
where
  floatsAgreeAll : List PropertyValue → List PropertyValue → Bool
    | a :: as, b :: bs => floatsAgree a b && floatsAgreeAll as bs
    | _, _ => true
  floatsAgreeEntries : List (String × PropertyValue) → List (String × PropertyValue) → Bool
    | (_, a) :: as, (_, b) :: bs => floatsAgree a b && floatsAgreeEntries as bs
    | _, _ => true

theorem totalCmpKey_inj {width m n : Nat} (h : totalCmpKey width m = totalCmpKey width n) :
    m = n := by
  unfold totalCmpKey at h
  split at h <;> split at h <;> omega

/-- Float arrays compare equal exactly when they hold the same bits. -/
theorem compareLex_key_eq_iff {α : Type} {key : α → ℤ} (hkey : Function.Injective key)
    {left right : List α} :
    compareLex (fun a b => Ord.compare (key a) (key b)) left right = .eq ↔ left = right := by
  rw [← compareLex_map, Std.LawfulEqCmp.compare_eq_iff_eq]
  exact (List.map_injective_iff.mpr hkey).eq_iff

theorem totalOrder_self (a : PropertyValue) : a.totalOrder a = .eq := Std.ReflCmp.compare_self

/-- Numbers with one range key compare equal. -/
theorem totalOrder_of_rangeKey {key : RangeKey} (ha : rangeKey a = some key)
    (hb : rangeKey b = some key) : a.totalOrder b = .eq := by
  rw [totalOrder_of_compare (compare_of_keys ha hb rfl), (cmp_eq_eq_iff key key).mpr rfl]

theorem rangeKey_of_floatEq {a b : UInt64}
    (h : floatEq f64Bits.toFloatLayout a.toNat b.toNat = true) :
    ∃ key, (rangeKey (.f64 a) = some key ∧ rangeKey (.f64 b) = some key) ∧
      rangeKey (.f32 a) = some key ∧ rangeKey (.f32 b) = some key := by
  obtain ⟨value, ha, hb⟩ := (floatEq_iff _ _ _).mp h
  have hleft : rangeKey (.f64 a) = some (Sum.inlₗ value) := congrArg (Option.map Sum.inlₗ) ha
  have hright : rangeKey (.f64 b) = some (Sum.inlₗ value) := congrArg (Option.map Sum.inlₗ) hb
  exact ⟨Sum.inlₗ value, ⟨hleft, hright⟩, hleft, hright⟩

theorem f64Array_eq_iff (left right : List UInt64) :
    totalOrder (.f64Array left) (.f64Array right) = .eq ↔
      floatsAgree (.f64Array left) (.f64Array right) = true := by
  have hkey : Function.Injective fun bits : UInt64 => totalCmpKey 64 bits.toNat :=
    fun _ _ h => UInt64.toNat_inj.mp (totalCmpKey_inj h)
  rw [floatsAgree, beq_iff_eq]
  exact compareLex_key_eq_iff hkey

theorem f32Array_eq_iff (left right : List UInt32) :
    totalOrder (.f32Array left) (.f32Array right) = .eq ↔
      floatsAgree (.f32Array left) (.f32Array right) = true := by
  have hkey : Function.Injective fun bits : UInt32 => totalCmpKey 32 bits.toNat :=
    fun _ _ h => UInt32.toNat_inj.mp (totalCmpKey_inj h)
  rw [floatsAgree, beq_iff_eq]
  exact compareLex_key_eq_iff hkey

mutual

/-- Nested values that the derived equality identifies. -/
theorem totalOrder_of_beq (a b : PropertyValue) (h : beq a b = true) :
    a.totalOrder b = .eq ↔ floatsAgree a b = true := by
  cases sameKind_of_beq h with
  | f64 =>
    obtain ⟨key, ⟨ha, hb⟩, -⟩ := rangeKey_of_floatEq h
    exact iff_of_true (totalOrder_of_rangeKey ha hb) rfl
  | f32 =>
    obtain ⟨key, -, ha, hb⟩ := rangeKey_of_floatEq h
    exact iff_of_true (totalOrder_of_rangeKey ha hb) rfl
  | f64Array a b => exact f64Array_eq_iff a b
  | f32Array a b => exact f32Array_eq_iff a b
  | array a b => exact totalCmpSlices_of_beq a b h
  | object a b => exact totalCmpObjects_of_beq a b h
  | null => exact iff_of_true (totalOrder_self _) rfl
  | bool | i64 | dateTime | string | bytes | i64Array | stringArray =>
    rw [beq, beq_iff_eq] at h
    subst h
    exact iff_of_true (totalOrder_self _) rfl

theorem totalCmpSlices_of_beq : ∀ as bs : List PropertyValue, beqList as bs = true →
    (totalCmpSlices as bs = .eq ↔ floatsAgree.floatsAgreeAll as bs = true)
  | [], bs, h => by
    cases bs with
    | nil => exact iff_of_true rfl rfl
    | cons b bs => cases h
  | a :: as, bs, h => by
    cases bs with
    | nil => cases h
    | cons b bs =>
      rw [beqList, Bool.and_eq_true] at h
      rw [totalCmpSlices_cons, Ordering.then_eq_eq, totalOrder_of_beq a b h.1,
        totalCmpSlices_of_beq as bs h.2, floatsAgree.floatsAgreeAll, Bool.and_eq_true]

theorem totalCmpObjects_of_beq : ∀ as bs : List (String × PropertyValue), beqEntries as bs = true →
    (totalCmpObjects as bs = .eq ↔ floatsAgree.floatsAgreeEntries as bs = true)
  | [], bs, h => by
    cases bs with
    | nil => exact iff_of_true rfl rfl
    | cons b bs => cases h
  | (k, a) :: as, bs, h => by
    cases bs with
    | nil => cases h
    | cons b bs =>
      obtain ⟨l, b⟩ := b
      rw [beqEntries, Bool.and_eq_true, Bool.and_eq_true, beq_iff_eq] at h
      obtain ⟨⟨rfl, hvalue⟩, hrest⟩ := h
      have hkey : compareText k k = .eq := (cmp_decidable _ _ _ _).trans (cmp_self_eq_eq _)
      rw [totalCmpObjects_cons, hkey, Ordering.eq_then, Ordering.then_eq_eq,
        totalOrder_of_beq a b hvalue, totalCmpObjects_of_beq as bs hrest,
        floatsAgree.floatsAgreeEntries, Bool.and_eq_true]

end

/-- **Which equal values the order identifies**: those whose float arrays agree in bits,
so that no zero stands against one of the other sign. -/
theorem totalOrder_eq_iff (h : eqValue a b = true) :
    a.totalOrder b = .eq ↔ floatsAgree a b = true := by
  rcases eqValue_cases h with ⟨ha, hb, hsame⟩ | ⟨xs, ys, rfl, rfl, -⟩ | ⟨xs, ys, rfl, rfl, -⟩ |
    ⟨xs, ys, rfl, rfl, heq⟩ | ⟨xs, ys, rfl, rfl, heq⟩ | ⟨-, rfl, -⟩
  · obtain ⟨n, hleft, hright⟩ := (sameNumber_iff _ _).mp hsame
    have hagree : floatsAgree a b = true := by
      cases a <;> cases ha <;> rfl
    have hkey : ∀ v : PropertyValue, v.isNumeric = true → fromProperty v = some n →
        rangeKey v = some (Sum.inlₗ n.value) := by
      intro v hv hn
      rw [rangeKey_of_numeric hv, hn]
      rfl
    exact iff_of_true (totalOrder_of_rangeKey (hkey a ha hleft) (hkey b hb hright)) hagree
  · exact f64Array_eq_iff xs ys
  · exact f32Array_eq_iff xs ys
  · exact totalCmpSlices_of_beq xs ys heq
  · exact totalCmpObjects_of_beq xs ys heq
  · cases a with
    | f64Array xs => exact f64Array_eq_iff xs xs
    | f32Array xs => exact f32Array_eq_iff xs xs
    | array xs => exact totalCmpSlices_of_beq xs xs h
    | object xs => exact totalCmpObjects_of_beq xs xs h
    | _ => exact iff_of_true (totalOrder_self _) rfl

/-- **The laws of the total order**: reflexive, swapped with its arguments, transitive, in
agreement with `compare`; and of two values that `eq_value` identifies it identifies
exactly those whose float arrays agree in bits. -/
theorem totalOrder_laws (a b c : PropertyValue) :
    a.totalOrder a = .eq ∧
    b.totalOrder a = (a.totalOrder b).swap ∧
    ((a.totalOrder b).isLE = true → (b.totalOrder c).isLE = true →
      (a.totalOrder c).isLE = true) ∧
    (∀ o : Ordering, a.compare b = some o → a.totalOrder b = o) ∧
    (eqValue a b = true → (a.totalOrder b = .eq ↔ floatsAgree a b = true)) :=
  ⟨totalOrder_self a, Std.OrientedCmp.eq_swap, Std.TransCmp.isLE_trans,
    fun _ => totalOrder_of_compare, totalOrder_eq_iff⟩

theorem totalOrder_laws_sample :
    totalOrder (.i64 1) (.f64 0x4000000000000000) = .lt ∧
      (totalOrder (.i64 1) (.string "a")).isLE = true ∧
      totalOrder (.array [.f64 0]) (.array [.f64 0x8000000000000000]) = .eq :=
  ⟨(totalOrder_laws _ _ .null).2.2.2.1 _ (by decide +kernel),
    (totalOrder_laws _ (.dateTime 5) _).2.2.1 (by decide +kernel) (by decide +kernel),
    ((totalOrder_laws _ _ .null).2.2.2.2 (by decide +kernel)).mpr (by decide +kernel)⟩

/-- Two arrays of one zero each, of opposite sign, are equal and yet ordered. -/
theorem totalOrder_zeros :
    eqValue (.f64Array [0]) (.f64Array [0x8000000000000000]) = true ∧
      totalOrder (.f64Array [0]) (.f64Array [0x8000000000000000]) = .gt := by
  constructor <;> decide +kernel

end PropertyValue

end HelixDb.Property
