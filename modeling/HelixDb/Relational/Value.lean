/-
  HelixDb.Relational.Value

  **QUERY VALUES** and the three relations on them.

  `equals` is predicate equality: unknown where a null takes part, and by exact
  number across integers and floats.  `predicateOrder` is what `<` reads.
  `totalCmp` is the total order of grouping, DISTINCT and sorting, in which null
  and NaN equal themselves.

    • `Value.equals_comm` — equality does not depend on the side;
    • `Value.totalCmp_eq_of_equals` — values that are equal in a predicate fall
      into one group.
-/
import HelixDb.Property.CanonicalNumber
import HelixDb.Lib.ByteOrder

namespace HelixDb.Relational

open HelixDb.Lib
open HelixDb.Property (CanonicalNumber)

/-! ## §1. Values. -/

/-- Graph identity. -/
inductive Entity where
  | node (id : UInt64)
  | relationship (id : UInt64)
deriving DecidableEq

/-- A path has one more node than relationships. -/
structure Path where
  nodes : List UInt64
  relationships : List UInt64
  alternates : nodes.length = relationships.length + 1

/-- The values of a query. -/
inductive Value where
  | null
  | boolean (value : Bool)
  | integer (value : Int64)
  | float (bits : UInt64)
  | string (value : String)
  | list (values : List Value)
  | map (entries : List (String × Value))
  | entity (value : Entity)
  | path (value : Path)

/-- When an error is raised. -/
inductive ErrorPhase where
  | compile
  | runtime
deriving DecidableEq

/-- A query error; its source span is not modelled. -/
structure QueryError where
  category : String
  detail : String
  phase : ErrorPhase
  message : String
deriving DecidableEq

/-- An error of the execution. -/
def QueryError.runtime (category detail message : String) : QueryError :=
  { category, detail, phase := .runtime, message }

/-- An argument of the wrong type. -/
def typeError (message : String) : QueryError :=
  .runtime "type_error" "invalid_argument_type" message

/-- A value or a query error. -/
abbrev Result (α : Type) := Except QueryError α

namespace Value

/-- `null` itself. -/
def isNull : Value → Bool
  | .null => true
  | _ => false

/-- The truth value; `null` is unknown. -/
def truth : Value → Result (Option Bool)
  | .null => .ok none
  | .boolean value => .ok (some value)
  | _ => .error (typeError "expected a boolean or null")

/-- The value of a truth value. -/
def ofTruth : Option Bool → Value
  | some value => .boolean value
  | none => .null

/-! ## §2. Numbers. -/

/-- The integers and the floats. -/
def isNumber : Value → Bool
  | .integer _ | .float _ => true
  | _ => false

/-- The number a value is; a `NaN` is none. -/
def number : Value → Option CanonicalNumber
  | .integer value => some (CanonicalNumber.fromI64 value)
  | .float bits => CanonicalNumber.fromF64 bits
  | _ => none

/-- Numbers by their value. -/
def numberCmp (self other : Value) : Option Ordering := do
  let left ← self.number
  let right ← other.number
  some (compare left right)

/-- A `NaN`. -/
def isNan : Value → Bool
  | .float bits => (CanonicalNumber.fromF64 bits).isNone
  | _ => false

/-! ## §3. Predicate equality and order. -/

/-- The loop over two containers' elements: one that differs decides, an unknown
one makes the result unknown. -/
def stepEquals (result rest : Option Bool) : Option Bool :=
  match result with
  | some false => some false
  | none => if rest = some false then some false else none
  | some true => rest

mutual

/-- `equals`: `null` makes it unknown. -/
def equals : Value → Value → Option Bool
  | .null, _ => none
  | _, .null => none
  | .list a, .list b => if a.length ≠ b.length then some false else equalsAll a b
  | .map a, .map b => if a.map Prod.fst ≠ b.map Prod.fst then some false else equalsEntries a b
  | .boolean a, .boolean b => some (a == b)
  | .string a, .string b => some (a == b)
  | .entity a, .entity b => some (a == b)
  | .path a, .path b => some (a.nodes == b.nodes && a.relationships == b.relationships)
  | a, b => if a.isNumber && b.isNumber then some (a.numberCmp b == some .eq) else some false

/-- Lists of one length, element by element. -/
def equalsAll : List Value → List Value → Option Bool
  | a :: as, b :: bs => stepEquals (equals a b) (equalsAll as bs)
  | _, _ => some true

/-- Maps with the same keys, entry by entry. -/
def equalsEntries : List (String × Value) → List (String × Value) → Option Bool
  | (_, a) :: as, (_, b) :: bs => stepEquals (equals a b) (equalsEntries as bs)
  | _, _ => some true

end

theorem numberCmp_eq_comm (a b : Value) :
    (a.numberCmp b == some .eq) = (b.numberCmp a == some .eq) := by
  unfold numberCmp
  cases a.number with
  | none => cases b.number <;> rfl
  | some x =>
    cases b.number with
    | none => rfl
    | some y =>
      show (some (compare x y) == some .eq) = (some (compare y x) == some .eq)
      rw [CanonicalNumber.compare_eq, CanonicalNumber.compare_eq, Bool.eq_iff_iff, beq_iff_eq,
        beq_iff_eq, Option.some.injEq, Option.some.injEq, cmp_eq_eq_iff, cmp_eq_eq_iff]
      exact eq_comm

mutual

/-- Equality does not depend on the side. -/
theorem equals_comm : ∀ a b : Value, a.equals b = b.equals a
  | .list a, .list b => by
    simp only [equals, equalsAll_comm a b, ne_comm (a := a.length)]
  | .map a, .map b => by
    simp only [equals, equalsEntries_comm a b, ne_comm (a := a.map Prod.fst)]
  | .null, b => by cases b <;> simp [equals]
  | .boolean a, b | .string a, b | .entity a, b | .path a, b =>
    by cases b <;> simp [equals, isNumber, Bool.beq_comm]
  | .integer a, b | .float a, b => by cases b <;> simp [equals, isNumber, numberCmp_eq_comm]
  | .list a, .null | .list a, .boolean _ | .list a, .integer _ | .list a, .float _
  | .list a, .string _ | .list a, .map _ | .list a, .entity _ | .list a, .path _
  | .map a, .null | .map a, .boolean _ | .map a, .integer _ | .map a, .float _
  | .map a, .string _ | .map a, .list _ | .map a, .entity _ | .map a, .path _ => by
    simp [equals, isNumber]

theorem equalsAll_comm : ∀ a b : List Value, equalsAll a b = equalsAll b a
  | a :: as, b :: bs => by
    rw [equalsAll, equalsAll, equals_comm a b, equalsAll_comm as bs]
  | [], b => by cases b <;> simp [equalsAll]
  | a :: as, [] => by simp [equalsAll]

theorem equalsEntries_comm : ∀ a b : List (String × Value), equalsEntries a b = equalsEntries b a
  | (_, a) :: as, (_, b) :: bs => by
    rw [equalsEntries, equalsEntries, equals_comm a b, equalsEntries_comm as bs]
  | [], b => by cases b <;> simp [equalsEntries]
  | a :: as, [] => by simp [equalsEntries]

end

mutual

/-- `predicate_order`: undefined across domains. -/
def predicateOrder : Value → Value → Option Ordering
  | .string a, .string b => some (cmp (utf8Bytes a) (utf8Bytes b))
  | .boolean a, .boolean b => some (compare a b)
  | .list a, .list b => predicateOrderAll a b
  | a, b => if a.isNumber && b.isNumber then a.numberCmp b else none

/-- Lists by their first difference. -/
def predicateOrderAll : List Value → List Value → Option Ordering
  | a :: as, b :: bs => do
    let comparison ← predicateOrder a b
    if comparison ≠ .eq then some comparison else predicateOrderAll as bs
  | as, bs => some (compare as.length bs.length)

end

/-! ## §4. The total order of groups. -/

/-- The place of a value's kind. -/
def rank : Value → Nat
  | .map _ => 0
  | .entity (.node _) => 1
  | .entity (.relationship _) => 2
  | .list _ => 3
  | .path _ => 4
  | .string _ => 5
  | .boolean _ => 6
  | .integer _ | .float _ => 7
  | .null => 8

/-- NaN sorts after every number. -/
def totalNumberCmp (self other : Value) : Ordering :=
  match self.numberCmp other with
  | some ordering => ordering
  | none =>
    match self, other with
    | .float a, .float b =>
      if (Value.float a).isNan && (Value.float b).isNan then .eq
      else if !(Value.float a).isNan then .lt
      else .gt
    | .float a, _ => if !(Value.float a).isNan then .lt else .gt
    | _, _ => .lt

/-- Nodes before relationships. -/
def entityCmp : Entity → Entity → Ordering
  | .node a, .node b => compare a b
  | .node _, .relationship _ => .lt
  | .relationship _, .node _ => .gt
  | .relationship a, .relationship b => compare a b

mutual

/-- `total_cmp`: by kind, then within it. -/
def totalCmp : Value → Value → Ordering
  | .string a, .string b => cmp (utf8Bytes a) (utf8Bytes b)
  | .boolean a, .boolean b => compare a b
  | .entity a, .entity b => entityCmp a b
  | .list a, .list b => totalCmpAll a b
  | .map a, .map b =>
    (compare a.length b.length).then
      ((cmp (a.map fun entry => utf8Bytes entry.1) (b.map fun entry => utf8Bytes entry.1)).then
        (totalCmpEntries a b))
  | .path a, .path b =>
    (cmp (a.nodes.map UInt64.toNat) (b.nodes.map UInt64.toNat)).then
      (cmp (a.relationships.map UInt64.toNat) (b.relationships.map UInt64.toNat))
  | a, b => if a.isNumber && b.isNumber then totalNumberCmp a b else compare a.rank b.rank

/-- Lists by their first difference, then by length. -/
def totalCmpAll : List Value → List Value → Ordering
  | a :: as, b :: bs => (totalCmp a b).then (totalCmpAll as bs)
  | as, bs => compare as.length bs.length

/-- The values of maps with the same keys. -/
def totalCmpEntries : List (String × Value) → List (String × Value) → Ordering
  | (_, a) :: as, (_, b) :: bs => (totalCmp a b).then (totalCmpEntries as bs)
  | _, _ => .eq

end

theorem stepEquals_true {result rest : Option Bool} (h : stepEquals result rest = some true) :
    result = some true ∧ rest = some true := by
  unfold stepEquals at h
  split at h
  next => cases h
  next => split at h <;> cases h
  next => exact ⟨rfl, h⟩

/-- The lists compared here carry their own decision of `<`, not a linear order's. -/
theorem cmp_self_of_irrefl {α : Type} [LT α] [DecidableLT α] {x : α} (h : ¬ x < x) :
    cmp x x = .eq := by
  unfold cmp cmpUsing
  rw [if_neg h, if_neg h]

theorem entityCmp_self (entity : Entity) : entityCmp entity entity = .eq := by
  cases entity <;> simp [entityCmp]

mutual

/-- **Equal values fall into one group.** -/
theorem totalCmp_eq_of_equals : ∀ {a b : Value}, a.equals b = some true → a.totalCmp b = .eq
  | .null, _, h => by simp [equals] at h
  | .list a, .list b, h => by
    rw [equals] at h
    split at h
    next => cases h
    next hlength =>
      exact totalCmpAll_eq_of_equals (not_not.mp hlength) h
  | .map a, .map b, h => by
    rw [equals] at h
    split at h
    next => cases h
    next hkeys =>
      have hkeys := not_not.mp hkeys
      have hlength : a.length = b.length := by simpa using congrArg List.length hkeys
      have hbytes : (a.map fun entry => utf8Bytes entry.1) = b.map fun entry => utf8Bytes entry.1 := by
        simpa [Function.comp_def] using congrArg (List.map utf8Bytes) hkeys
      have hsame : cmp (b.map fun entry => utf8Bytes entry.1)
          (b.map fun entry => utf8Bytes entry.1) = .eq := cmp_self_of_irrefl (lt_irrefl _)
      rw [totalCmp, hlength, hbytes, hsame, totalCmpEntries_eq_of_equals hlength h]
      simp
  | .boolean a, .boolean b, h => by
    have hab : a = b := by simpa [equals] using h
    rw [hab, totalCmp, compare_eq_iff_eq]
  | .string a, .string b, h => by
    have hab : a = b := by simpa [equals] using h
    rw [hab]
    exact cmp_self_of_irrefl (lt_irrefl _)
  | .entity a, .entity b, h => by
    have hab : a = b := by simpa [equals] using h
    rw [hab, totalCmp, entityCmp_self]
  | .path a, .path b, h => by
    have hab : a.nodes = b.nodes ∧ a.relationships = b.relationships := by
      simpa [equals] using h
    have hsame : ∀ ids : List Nat, cmp ids ids = .eq := fun _ => cmp_self_of_irrefl (lt_irrefl _)
    rw [totalCmp, hab.1, hab.2, hsame, hsame]
    rfl
  | .integer a, .integer b, h | .integer a, .float b, h | .float a, .integer b, h
  | .float a, .float b, h => by
    simp only [equals, isNumber, Bool.and_self, if_true, Option.some.injEq, beq_iff_eq] at h
    simp only [totalCmp, isNumber, Bool.and_self, if_true, totalNumberCmp, h]
  | .boolean _, .null, h | .integer _, .null, h | .float _, .null, h | .string _, .null, h
  | .list _, .null, h | .map _, .null, h | .entity _, .null, h | .path _, .null, h => by
    simp [equals] at h
  | .boolean _, .integer _, h | .boolean _, .float _, h | .boolean _, .string _, h
  | .boolean _, .list _, h | .boolean _, .map _, h | .boolean _, .entity _, h
  | .boolean _, .path _, h | .integer _, .boolean _, h | .integer _, .string _, h
  | .integer _, .list _, h | .integer _, .map _, h | .integer _, .entity _, h
  | .integer _, .path _, h | .float _, .boolean _, h | .float _, .string _, h
  | .float _, .list _, h | .float _, .map _, h | .float _, .entity _, h | .float _, .path _, h
  | .string _, .boolean _, h | .string _, .integer _, h | .string _, .float _, h
  | .string _, .list _, h | .string _, .map _, h | .string _, .entity _, h
  | .string _, .path _, h | .list _, .boolean _, h | .list _, .integer _, h | .list _, .float _, h
  | .list _, .string _, h | .list _, .map _, h | .list _, .entity _, h | .list _, .path _, h
  | .map _, .boolean _, h | .map _, .integer _, h | .map _, .float _, h | .map _, .string _, h
  | .map _, .list _, h | .map _, .entity _, h | .map _, .path _, h | .entity _, .boolean _, h
  | .entity _, .integer _, h | .entity _, .float _, h | .entity _, .string _, h
  | .entity _, .list _, h | .entity _, .map _, h | .entity _, .path _, h | .path _, .boolean _, h
  | .path _, .integer _, h | .path _, .float _, h | .path _, .string _, h | .path _, .list _, h
  | .path _, .map _, h | .path _, .entity _, h => by
    simp [equals, isNumber] at h

theorem totalCmpAll_eq_of_equals : ∀ {a b : List Value}, a.length = b.length →
    equalsAll a b = some true → totalCmpAll a b = .eq
  | [], [], _, _ => by simp [totalCmpAll]
  | a :: as, b :: bs, hlength, h => by
    obtain ⟨hhead, htail⟩ := stepEquals_true h
    rw [totalCmpAll, totalCmp_eq_of_equals hhead,
      totalCmpAll_eq_of_equals (Nat.succ.inj hlength) htail]
    rfl

theorem totalCmpEntries_eq_of_equals : ∀ {a b : List (String × Value)}, a.length = b.length →
    equalsEntries a b = some true → totalCmpEntries a b = .eq
  | [], [], _, _ => by simp [totalCmpEntries]
  | (_, a) :: as, (_, b) :: bs, hlength, h => by
    obtain ⟨hhead, htail⟩ := stepEquals_true h
    rw [totalCmpEntries, totalCmp_eq_of_equals hhead,
      totalCmpEntries_eq_of_equals (Nat.succ.inj hlength) htail]
    rfl

end

end Value

end HelixDb.Relational
