/-
  HelixDb.Relational.Evaluation

  **SCALAR EVALUATION** of an expression on a row of a stored graph.

  Reading a property can fail: a stored value outside the language's domain
  keeps its error until it is read.  Connectives stop at the operand that
  decides, in written order.

  Arithmetic, the strict functions other than `id` and `exists`, and the
  aggregates are a parameter, `Builtins`: nothing here depends on what they
  compute.  Budgets (memory, collection size, the deadline) are not modelled.
-/
import HelixDb.Relational.Expression

namespace HelixDb.Relational

open HelixDb.Lib

/-! ## §1. Stored graphs. -/

/-- A stored node. -/
structure NodeRecord where
  id : UInt64
  label : Option String
  properties : List (String × Result Value)

/-- A stored relationship. -/
structure EdgeRecord where
  id : UInt64
  source : UInt64
  target : UInt64
  type : String
  properties : List (String × Result Value)

/-- A stored graph: identities are unique, and the endpoints of an edge exist. -/
structure Graph where
  nodes : List NodeRecord
  edges : List EdgeRecord
  nodes_nodup : (nodes.map NodeRecord.id).Nodup
  edges_nodup : (edges.map EdgeRecord.id).Nodup
  endpoints : ∀ edge ∈ edges,
    edge.source ∈ nodes.map NodeRecord.id ∧ edge.target ∈ nodes.map NodeRecord.id

namespace Graph

variable (graph : Graph)

/-- The node of an ID. -/
def node (id : UInt64) : Option NodeRecord := graph.nodes.find? fun node => node.id == id

/-- The relationship of an ID. -/
def edge (id : UInt64) : Option EdgeRecord := graph.edges.find? fun edge => edge.id == id

/-- `missing`: the entity is gone. -/
def missing : QueryError :=
  .runtime "entity_not_found" "deleted_entity_access" "graph entity is unavailable"

/-- The properties of an entity. -/
def properties : Entity → Result (List (String × Result Value))
  | .node id => ((graph.node id).map NodeRecord.properties).elim (.error missing) .ok
  | .relationship id => ((graph.edge id).map EdgeRecord.properties).elim (.error missing) .ok

/-- The label of a node, the type of a relationship. -/
def label : Entity → Result (Option String)
  | .node id => ((graph.node id).map NodeRecord.label).elim (.error missing) .ok
  | .relationship id => ((graph.edge id).map fun edge => some edge.type).elim (.error missing) .ok

/-- A property that is not stored is null; one that cannot be read fails. -/
def property (entity : Entity) (key : String) : Result Value := do
  let properties ← graph.properties entity
  match properties.find? fun entry => entry.1 == key with
  | some (_, value) => value
  | none => pure .null

end Graph

/-! ## §2. Evaluation. -/

/-- A row holds a value for every slot; a slot out of scope holds null. -/
abbrev Row := Slot → Value

/-- The operations whose results no property here depends on. -/
structure Builtins where
  arithmetic : Binary → Value → Value → Result Value
  function : Graph → Function → List Value → Result Value
  aggregate : Aggregate → Bool → List Value → Result Value

/-- What one evaluation reads besides its row. -/
structure Context where
  graph : Graph
  parameters : List (String × Value)
  builtins : Builtins

/-- The value of a parameter. -/
def Context.parameter (context : Context) (name : String) : Result Value :=
  match context.parameters.find? fun entry => entry.1 == name with
  | some (_, value) => .ok value
  | none => .error (.runtime "parameter_missing" "missing_parameter" ("missing parameter $" ++ name))

/-- `position`: a negative index counts from the end. -/
def position (index : Int) (length : Nat) : Option Nat :=
  let index := if index < 0 then (length : Int) + index else index
  if 0 ≤ index ∧ index < length then some index.toNat else none

/-- A slice bound; negative ones count from the end. -/
def slicePosition (index : Int) (length : Nat) : Nat :=
  let index := if index < 0 then (length : Int) + index else index
  (max 0 (min index length)).toNat

/-- `IN`: unknown when no member is equal and one is unknown. -/
def memberOf (value : Value) : List Value → Option Bool
  | [] => some false
  | member :: members =>
    match value.equals member with
    | some true => some true
    | none => if memberOf value members = some true then some true else none
    | some false => memberOf value members

/-- What a comparison makes of an order. -/
def Binary.ofOrdering : Binary → Ordering → Bool
  | .less, o => o == .lt
  | .lessEqual, o => o != .gt
  | .greater, o => o == .gt
  | .greaterEqual, o => o != .lt
  | _, _ => false

/-- The four comparisons. -/
def Binary.isComparison : Binary → Bool
  | .less | .lessEqual | .greater | .greaterEqual => true
  | _ => false

/-- The string tests. -/
def stringPredicate (op : Binary) (a b : String) : Bool :=
  match op with
  | .startsWith => b.toList.isPrefixOf a.toList
  | .endsWith => b.toList.isSuffixOf a.toList
  | _ => a.toList.tails.any b.toList.isPrefixOf

/-- `binary`. -/
def binary (builtins : Builtins) (op : Binary) (a b : Value) : Result Value :=
  match op with
  | .isIn =>
    match b with
    | .null => .ok .null
    | .list members => .ok (.ofTruth (memberOf a members))
    | _ => .error (typeError "IN requires a list")
  | .equal => .ok (.ofTruth (a.equals b))
  | .notEqual => .ok (.ofTruth ((a.equals b).map fun equal => !equal))
  | op =>
    if a.isNull || b.isNull then .ok .null
    else if op.isComparison then
      if a.isNumber && b.isNumber && (a.isNan || b.isNan) then .ok (.boolean false)
      else .ok (.ofTruth ((a.predicateOrder b).map op.ofOrdering))
    else
      match op with
      | .startsWith | .endsWith | .contains =>
        match a, b with
        | .string a, .string b => .ok (.boolean (stringPredicate op a b))
        | _, _ => .ok .null
      | op => builtins.arithmetic op a b

/-- The unary operators. -/
def unary : Unary → Value → Result Value
  | .isNull, value => .ok (.boolean value.isNull)
  | .isNotNull, value => .ok (.boolean !value.isNull)
  | .not, value => do
    let truth ← value.truth
    pure (.ofTruth (truth.map fun value => !value))
  | .positive, value =>
    if value.isNull || value.isNumber then .ok value
    else .error (typeError "unary + requires a number")
  | .negate, .null => .ok .null
  | .negate, .integer value =>
    if value = Int64.minValue then
      .error (.runtime "arithmetic_error" "number_out_of_range"
        "integer result is outside the signed 64-bit range")
    else .ok (.integer (-value))
  | .negate, .float bits => .ok (.float (bits ^^^ 0x8000000000000000))
  | .negate, _ => .error (typeError "unary - requires a number")

/-- The entry of a map, or `null`. -/
def lookupEntry (entries : List (String × Value)) (key : String) : Value :=
  match entries.find? fun entry => entry.1 == key with
  | some (_, value) => value
  | none => .null

/-- `BTreeMap::insert`: entries stay in key order, a later value replaces. -/
def insertEntry : List (String × Value) → String × Value → List (String × Value)
  | [], entry => [entry]
  | first :: entries, entry =>
    match cmp (utf8Bytes entry.1) (utf8Bytes first.1) with
    | .lt => entry :: first :: entries
    | .eq => entry :: entries
    | .gt => first :: insertEntry entries entry

/-- The property of a map or an entity. -/
def propertyOf (graph : Graph) (key : String) : Value → Result Value
  | .null => .ok .null
  | .map entries => .ok (lookupEntry entries key)
  | .entity entity => graph.property entity key
  | _ => .error (typeError "property access requires a map, node, or relationship")

/-- The element of a list or a map. -/
def indexOf (graph : Graph) (value index : Value) : Result Value :=
  match value, index with
  | .null, _ => .ok .null
  | _, .null => .ok .null
  | .list values, .integer index =>
    .ok ((position index.toInt values.length).elim .null fun i => values.getD i .null)
  | .list _, _ =>
    .error (.runtime "type_error" "list_element_access_by_non_integer"
      "list index must be an integer")
  | .map entries, .string key => .ok (lookupEntry entries key)
  | .entity entity, .string key => graph.property entity key
  | .map _, _ | .entity _, _ =>
    .error (.runtime "type_error" "map_element_access_by_non_string" "map index must be a string")
  | _, _ => .error (typeError "value is not indexable")

/-- The place of a slice bound; `null` makes the slice `null`. -/
def sliceBound (length : Nat) : Value → Result (Option Nat)
  | .null => .ok none
  | .integer index => .ok (some (slicePosition index.toInt length))
  | _ => .error (typeError "slice bounds must be integers")

/-- `function`: `id` and `exists` here, the rest by `Builtins`. -/
def callFunction (context : Context) (function : Function) : List Value → Result Value
  | [] => .error (typeError "missing function argument")
  | first :: rest =>
    if function = .exists then .ok (.boolean !first.isNull)
    else if first.isNull then .ok .null
    else
      match function, first with
      | .id, .entity (.node id) | .id, .entity (.relationship id) =>
        if id.toNat < 2 ^ 63 then .ok (.integer (Int64.ofNat id.toNat))
        else .error (.runtime "arithmetic_error" "number_out_of_range"
          "integer result is outside the signed 64-bit range")
      | .id, _ => .error (typeError "id requires a graph entity")
      | function, first => context.builtins.function context.graph function (first :: rest)

/-- Whether the running result decides a connective before its next operand. -/
def Connective.decided (op : Connective) (result : Value) : Result Bool :=
  match op with
  | .and => do
    let truth ← result.truth
    pure (truth == some false)
  | .or => do
    let truth ← result.truth
    pure (truth == some true)
  | .xor => pure false

/-- The connectives in three-valued logic. -/
def Connective.combine : Connective → Option Bool → Option Bool → Option Bool
  | .and, left, right =>
    if left = some false ∨ right = some false then some false
    else if left = some true ∧ right = some true then some true else none
  | .or, left, right =>
    if left = some true ∨ right = some true then some true
    else if left = some false ∧ right = some false then some false else none
  | .xor, some left, some right => some (left != right)
  | .xor, _, _ => none

section Eval

variable (context : Context)

mutual

/-- `eval` on a row; `group` holds the rows an aggregate ranges over. -/
def eval (group : Option (List Row)) (row : Row) : Expression → Result Value
  | .literal value => .ok value
  | .slot slot => .ok (row slot)
  | .parameter name => context.parameter name
  | .property value key => do
    let value ← eval group row value
    propertyOf context.graph key value
  | .index value index => do
    let value ← eval group row value
    let index ← eval group row index
    indexOf context.graph value index
  | .slice value start stop => do
    let value ← eval group row value
    match value with
    | .null => pure .null
    | .list values => do
      let start ← evalBound group row values.length 0 start
      let stop ← evalBound group row values.length values.length stop
      match start, stop with
      | some start, some stop => pure (.list ((values.take stop).drop start))
      | _, _ => pure .null
    | _ => .error (typeError "slicing requires a list")
  | .unary op value => do
    let value ← eval group row value
    unary op value
  | .binary op left right => do
    let left ← eval group row left
    let right ← eval group row right
    binary context.builtins op left right
  | .connective op operands =>
    match operands with
    | [] => .ok .null
    | first :: rest => do
      let first ← eval group row first
      evalConnective group row op first rest
  | .function .coalesce arguments => evalCoalesce group row arguments
  | .function function arguments => do
    let values ← evalAll group row arguments
    callFunction context function values
  | .aggregate function argument distinct =>
    match group with
    | none => .error (typeError "aggregate requires a grouped input")
    | some rows => do
      let values ← evalGroup argument rows
      context.builtins.aggregate function distinct values
  | .list items => do
    let values ← evalAll group row items
    pure (.list values)
  | .map entries => do
    let values ← evalEntries group row entries
    pure (.map (values.foldl insertEntry []))
  | .case branches otherwise => do
    match ← evalBranches group row branches with
    | some value => pure value
    | none => eval group row otherwise
  | .simpleCase operand branches otherwise => do
    let operand ← eval group row operand
    match ← evalSimpleBranches group row operand branches with
    | some value => pure value
    | none => eval group row otherwise
  | .hasLabel slot label =>
    match row slot with
    | .null => .ok .null
    | .entity (.node id) => do
      let stored ← context.graph.label (.node id)
      pure (.boolean (stored == some label))
    | _ => .error (typeError "label test requires a node")

/-- A bound that may be left out. -/
def evalBound (group : Option (List Row)) (row : Row) (length default : Nat) :
    Option Expression → Result (Option Nat)
  | none => .ok (some default)
  | some expression => do
    let value ← eval group row expression
    sliceBound length value

/-- The operands are read until the result is decided. -/
def evalConnective (group : Option (List Row)) (row : Row) (op : Connective) (result : Value) :
    List Expression → Result Value
  | [] => .ok result
  | operand :: operands => do
    if ← op.decided result then pure result
    else do
      let right ← eval group row operand
      let left ← result.truth
      let right ← right.truth
      evalConnective group row op (.ofTruth (op.combine left right)) operands

/-- The first value that is not `null`. -/
def evalCoalesce (group : Option (List Row)) (row : Row) : List Expression → Result Value
  | [] => .ok .null
  | argument :: arguments => do
    let value ← eval group row argument
    if value.isNull then evalCoalesce group row arguments else pure value

/-- Expressions from left to right. -/
def evalAll (group : Option (List Row)) (row : Row) : List Expression → Result (List Value)
  | [] => .ok []
  | expression :: expressions => do
    let value ← eval group row expression
    let values ← evalAll group row expressions
    pure (value :: values)

/-- The entries of a map from left to right. -/
def evalEntries (group : Option (List Row)) (row : Row) :
    List (String × Expression) → Result (List (String × Value))
  | [] => .ok []
  | (key, expression) :: entries => do
    let value ← eval group row expression
    let values ← evalEntries group row entries
    pure ((key, value) :: values)

/-- The first branch whose condition is true. -/
def evalBranches (group : Option (List Row)) (row : Row) :
    List (Expression × Expression) → Result (Option Value)
  | [] => .ok none
  | (condition, value) :: branches => do
    let condition ← eval group row condition
    let truth ← condition.truth
    if truth = some true then do
      let value ← eval group row value
      pure (some value)
    else evalBranches group row branches

/-- The first branch that equals the operand. -/
def evalSimpleBranches (group : Option (List Row)) (row : Row) (operand : Value) :
    List (Expression × Expression) → Result (Option Value)
  | [] => .ok none
  | (comparison, value) :: branches => do
    let comparison ← eval group row comparison
    if operand.equals comparison = some true then do
      let value ← eval group row value
      pure (some value)
    else evalSimpleBranches group row operand branches

/-- An aggregate's argument on each row of the group; `count(*)` counts ones. -/
def evalGroup : Option Expression → List Row → Result (List Value)
  | none, rows => .ok (rows.map fun _ => .integer 1)
  | some expression, rows => rows.mapM fun row => eval none row expression

end

end Eval

end HelixDb.Relational
