/-
  HelixDb.Relational.Query

  **VALIDATED QUERIES**: patterns, operators and the scope of every operator.

  A query is a list of row operators over one catalog of bindings.  Its
  constructor checks that expressions only name slots in scope, that pattern
  members agree with the catalog, and that named paths alternate; the binder
  adds that a relationship variable does not repeat within one MATCH.  Both
  travel with the value, so no later proof checks a query again.

  Structural limits (binding, operator and expression budgets) are not modelled.

    • `Query.validate` — every operator passed its check, in the scope before it.
-/
import HelixDb.Relational.Evaluation
import HelixDb.Lib.FoldM

namespace HelixDb.Relational

open HelixDb.Lib

/-! ## §1. The slots an expression reads. -/

namespace Expression

mutual

/-- The row slots an expression reads. -/
def slots : Expression → List Slot
  | .slot s | .hasLabel s _ => [s]
  | .literal _ | .parameter _ => []
  | .property value _ | .unary _ value => slots value
  | .index value offset => slots value ++ slots offset
  | .slice value start stop => slots value ++ slotsOption start ++ slotsOption stop
  | .binary _ left right => slots left ++ slots right
  | .connective _ operands => slotsAll operands
  | .function _ arguments => slotsAll arguments
  | .aggregate _ argument _ => slotsOption argument
  | .list items => slotsAll items
  | .map entries => slotsEntries entries
  | .case branches otherwise => slotsBranches branches ++ slots otherwise
  | .simpleCase operand branches otherwise =>
    slots operand ++ slotsBranches branches ++ slots otherwise

/-- Of an expression that may be left out. -/
def slotsOption : Option Expression → List Slot
  | some expression => slots expression
  | none => []

/-- Of several expressions. -/
def slotsAll : List Expression → List Slot
  | [] => []
  | expression :: expressions => slots expression ++ slotsAll expressions

/-- Of the entries of a map. -/
def slotsEntries : List (String × Expression) → List Slot
  | [] => []
  | (_, expression) :: entries => slots expression ++ slotsEntries entries

/-- Of branches. -/
def slotsBranches : List (Expression × Expression) → List Slot
  | [] => []
  | (condition, value) :: branches => slots condition ++ slots value ++ slotsBranches branches

end

end Expression

/-! ## §2. Patterns and operators. -/

/-- The types a scalar binding may have. -/
inductive ValueType where
  | any | null | boolean | integer | float | string | list | map | node | relationship | path
deriving DecidableEq

/-- What a slot holds. -/
inductive BindingType where
  | node | relationship | path | scalar
deriving DecidableEq

/-- A binding of the catalog; its name and nullability are not read here. -/
structure Binding where
  kind : BindingType
  valueType : ValueType
deriving DecidableEq

/-- The direction of a relationship pattern. -/
inductive Direction where
  | outgoing | incoming | undirected
deriving DecidableEq

/-- A node of a pattern. -/
structure NodePattern where
  slot : Slot
  label : Option String
  properties : List (String × Expression)

/-- A relationship of a pattern. -/
structure RelationshipPattern where
  slot : Slot
  fromSlot : Slot
  toSlot : Slot
  direction : Direction
  types : List String
  properties : List (String × Expression)

/-- A named path of a pattern. -/
structure PathPattern where
  slot : Slot
  nodes : List Slot
  relationships : List Slot

/-- A conjunction of patterns; relationship uniqueness is scoped to one match. -/
structure Pattern where
  nodes : List NodePattern
  relationships : List RelationshipPattern
  paths : List PathPattern

namespace Pattern

variable (pattern : Pattern)

/-- The slots of the nodes. -/
def nodeSlots : List Slot := pattern.nodes.map NodePattern.slot

/-- The slots of the relationships. -/
def relationshipSlots : List Slot := pattern.relationships.map RelationshipPattern.slot

/-- All slots a pattern binds. -/
def slots : List Slot :=
  pattern.nodeSlots ++ pattern.relationshipSlots ++ pattern.paths.map PathPattern.slot

end Pattern

/-- An output slot and its expression. -/
structure Projection where
  slot : Slot
  expression : Expression

/-- A sort key. -/
structure OrderKey where
  expression : Expression
  descending : Bool

/-- The changes of a `SET` or `REMOVE`. -/
inductive PropertyMutation where
  | set (entity : Slot) (key : String) (value : Expression)
  | remove (entity : Slot) (key : String)
  | replace (entity : Slot) (properties : Expression)
  | extend (entity : Slot) (properties : Expression)

/-- Everything a WITH or RETURN clause says. -/
structure Project where
  items : List Projection
  distinct : Bool
  ordering : List OrderKey
  predicate : Option Expression
  skip : Option Expression
  limit : Option Expression

/-- The operators of a query. -/
inductive Operator where
  | matchPattern (pattern : Pattern) (optional : Bool) (predicate : Option Expression)
  | filter (predicate : Expression)
  | unwind (expression : Expression) (slot : Slot)
  | project (projection : Project)
  | create (pattern : Pattern)
  | update (mutations : List PropertyMutation)
  | delete (entities : List Expression) (detach : Bool)

/-! ## §3. Scope. -/

/-- The slots a projection binds. -/
def Project.outputs (projection : Project) : List Slot := projection.items.map Projection.slot

/-- The slots in scope after an operator. -/
def Operator.scope (defined : List Slot) : Operator → List Slot
  | .matchPattern pattern _ _ | .create pattern => pattern.slots ++ defined
  | .unwind _ slot => slot :: defined
  | .project projection => projection.outputs
  | .filter _ | .update _ | .delete _ _ => defined

/-- `contracts()[index].input()`: the slots in scope before the operator there. -/
def inputScope (operators : List Operator) (index : Nat) : List Slot :=
  (operators.take index).foldl Operator.scope []

/-! ## §4. Validation. -/

/-- An error of the planner's own checks. -/
def internalError (detail message : String) : QueryError :=
  { category := "internal_planner_error", detail, phase := .compile, message }

/-- A check with its error. -/
def require (condition : Bool) (error : QueryError) : Result Unit :=
  if condition then .ok () else .error error

theorem require_ok {condition : Bool} {error : QueryError} {u : Unit}
    (h : require condition error = .ok u) : condition = true := by
  unfold require at h
  split at h
  · assumption
  · cases h

/-- Every slot an expression reads is defined. -/
def checkScope (message : String) (defined : List Slot) (expression : Expression) : Result Unit :=
  require (expression.slots.all fun slot => defined.contains slot)
    (internalError "unbound_slot" message)

/-- Whether the catalog lets a pattern bind `slot` as an entity of this kind. -/
def mayBind (bindings : List Binding) (kind : BindingType) (slot : Slot) : Bool :=
  bindings[slot]?.any fun binding =>
    binding.kind == kind || binding.valueType == .any || binding.valueType == .null

/-- The scope of an expression. -/
def expressionScope : List Slot → Expression → Result Unit :=
  checkScope "expression references an undefined row slot"

/-- The scope of a filter. -/
def selectionScope : List Slot → Expression → Result Unit :=
  checkScope "selection references an undefined incoming row slot"

/-- The checks of a node pattern. -/
def NodePattern.validate (bindings : List Binding) (defined : List Slot) (node : NodePattern) :
    Result Unit := do
  require (node.label != some "")
    (internalError "empty_label" "resolved node labels must be nonempty")
  require (mayBind bindings .node node.slot)
    (internalError "invalid_node_slot" "node pattern must bind a node")
  node.properties.forM fun entry => expressionScope defined entry.2

/-- The checks of a relationship pattern. -/
def RelationshipPattern.validate (bindings : List Binding) (defined : List Slot)
    (pattern : Pattern) (rel : RelationshipPattern) : Result Unit := do
  require (rel.types.all (fun name => name != "") && pattern.nodeSlots.contains rel.fromSlot
      && pattern.nodeSlots.contains rel.toSlot)
    (internalError "invalid_relationship_pattern"
      "relationship endpoints must be node pattern slots and types must be nonempty")
  require (mayBind bindings .relationship rel.slot && defined.contains rel.fromSlot
      && defined.contains rel.toSlot)
    (internalError "invalid_relationship_slot"
      "relationship pattern has invalid endpoints or binding")
  rel.properties.forM fun entry => expressionScope defined entry.2

/-- The relationship at `index` of the path joins its neighbours, either way. -/
def PathPattern.connects (pattern : Pattern) (path : PathPattern) (index : Nat) (slot : Slot) :
    Bool :=
  pattern.relationships.any fun rel =>
    rel.slot == slot &&
      (some rel.fromSlot == path.nodes[index]? && some rel.toSlot == path.nodes[index + 1]? ||
        some rel.toSlot == path.nodes[index]? && some rel.fromSlot == path.nodes[index + 1]?)

/-- The checks of a path pattern. -/
def PathPattern.validate (bindings : List Binding) (defined : List Slot) (pattern : Pattern)
    (path : PathPattern) : Result Unit := do
  require ((bindings[path.slot]?.any fun binding => binding.kind == .path)
      && !pattern.nodeSlots.contains path.slot && !pattern.relationshipSlots.contains path.slot
      && (path.nodes.all fun slot =>
        defined.contains slot && pattern.nodeSlots.contains slot && mayBind bindings .node slot)
      && path.relationships.all fun slot =>
        defined.contains slot && mayBind bindings .relationship slot)
    (internalError "invalid_path"
      ("path members must belong to their pattern and have compatible types; " ++
        "the path output must be separate"))
  require (path.nodes.length == path.relationships.length + 1)
    (internalError "invalid_path" "path must alternate nodes and relationships")
  path.relationships.zipIdx.forM fun entry =>
    require (path.connects pattern entry.2 entry.1)
      (internalError "invalid_path" "path relationship does not connect its adjacent nodes")

/-- The checks of a pattern. -/
def Pattern.validate (bindings : List Binding) (defined : List Slot) (pattern : Pattern) :
    Result Unit := do
  pattern.nodes.forM fun node => node.validate bindings defined
  pattern.relationships.forM fun rel => rel.validate bindings defined pattern
  pattern.paths.forM fun path => path.validate bindings defined pattern

/-- The checks of a projection; its window sees no row. -/
def Project.validate (defined : List Slot) (projection : Project) : Result Unit := do
  require (decide projection.outputs.Nodup)
    (internalError "invalid_schema" "projection output slots must be unique")
  projection.items.forM fun item =>
    checkScope "projection references an undefined incoming row slot" defined item.expression
  let orderScope := projection.outputs ++ defined
  projection.ordering.forM fun key => expressionScope orderScope key.expression
  projection.predicate.forM (selectionScope orderScope)
  projection.skip.forM (expressionScope [])
  projection.limit.forM (expressionScope [])

/-- The checks of a mutation. -/
def PropertyMutation.validate (defined : List Slot) (mutation : PropertyMutation) :
    Result Unit := do
  match mutation with
  | .set entity _ value | .replace entity value | .extend entity value =>
    expressionScope defined (.slot entity)
    expressionScope defined value
  | .remove entity _ => expressionScope defined (.slot entity)

/-- One operator of `Query::new`, with the slots in scope before it. -/
def Operator.validate (bindings : List Binding) (defined : List Slot) (operator : Operator) :
    Result Unit := do
  let outputs := match operator with
    | .matchPattern pattern _ _ | .create pattern => pattern.slots
    | .unwind _ slot => [slot]
    | .project projection => projection.outputs
    | .filter _ | .update _ | .delete _ _ => []
  require (outputs.all fun slot => slot < bindings.length)
    (internalError "invalid_schema" "operator output is outside the binding catalog")
  match operator with
  | .matchPattern pattern _ predicate => do
    pattern.validate bindings (pattern.slots ++ defined)
    predicate.forM (selectionScope (pattern.slots ++ defined))
  | .create pattern => pattern.validate bindings (pattern.slots ++ defined)
  | .filter predicate => selectionScope defined predicate
  | .unwind expression _ => expressionScope defined expression
  | .project projection => projection.validate defined
  | .update mutations => mutations.forM (PropertyMutation.validate defined)
  | .delete entities _ => entities.forM (expressionScope defined)

/-- `Query::new`, as the scope after the operators. -/
def validateFrom (bindings : List Binding) (operators : List Operator) (defined : List Slot) :
    Result (List Slot) :=
  operators.foldlM (fun defined operator => do
    operator.validate bindings defined
    pure (operator.scope defined)) defined

/-- What the binder adds for a MATCH: a relationship variable cannot repeat, and
only a variable bound before can stand for a node and a relationship at once. -/
structure Pattern.Bound (pattern : Pattern) (scope : List Slot) : Prop where
  relationships_nodup : pattern.relationshipSlots.Nodup
  kinds : ∀ slot ∈ pattern.nodeSlots, slot ∈ pattern.relationshipSlots → slot ∈ scope

/-- A validated query.  Returned columns are not read by any operator. -/
structure Query where
  bindings : List Binding
  operators : List Operator
  validated : ∃ defined, validateFrom bindings operators [] = .ok defined
  bound : ∀ {index : Nat} {pattern : Pattern} {optional : Bool} {predicate : Option Expression},
    operators[index]? = some (Operator.matchPattern pattern optional predicate) →
    pattern.Bound (inputScope operators index)

/-! ## §5. What validation establishes. -/

variable {bindings : List Binding}

/-- Every operator was checked against the scope before it. -/
theorem validateFrom_validate {operators : List Operator} :
    ∀ {defined scope : List Slot} {index : Nat} {operator : Operator},
      validateFrom bindings operators defined = .ok scope → operators[index]? = some operator →
      operator.validate bindings ((operators.take index).foldl Operator.scope defined) =
        .ok () := by
  induction operators with
  | nil => exact fun _ h => nomatch h
  | cons first operators ih =>
    intro defined scope index operator h hoperator
    unfold validateFrom at h
    rw [List.foldlM_cons] at h
    obtain ⟨next, hfirst, hrest⟩ := except_bind_ok h
    obtain ⟨_, hvalidate, hnext⟩ := except_bind_ok hfirst
    cases hnext
    cases index with
    | zero =>
      cases hoperator
      exact hvalidate
    | succ index => exact ih hrest hoperator

theorem Query.validate (query : Query) {index : Nat} {operator : Operator}
    (h : query.operators[index]? = some operator) :
    operator.validate query.bindings (inputScope query.operators index) = .ok () := by
  obtain ⟨_, hvalidated⟩ := query.validated
  exact validateFrom_validate hvalidated h

end HelixDb.Relational
