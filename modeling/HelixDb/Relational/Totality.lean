/-
  HelixDb.Relational.Totality

  **TOTAL OPERANDS AND PREDICATES**: what the planner takes to evaluate without
  failing on every row of a MATCH.

  An operand is a literal, a slot, a parameter, a property of a slot that holds
  properties, or a list or map of such.  A total predicate combines comparisons,
  label and null tests and IN over total operands.

    • `Totality.total_evaluates_iff` — both evaluate exactly where every `id()` they
      call is of an entity with an ID in the signed range;
    • `Totality.id_of_largeNode_fails` — and `id()` fails beyond it.
-/
import HelixDb.Relational.Query
import HelixDb.Relational.Parameters

namespace HelixDb.Relational

open HelixDb.Lib (except_bind_eq_ok)

/-! ## §1. The check. -/

/-- What a totality argument knows about parameters: their values, or only that
none is missing. -/
inductive KnownParameters where
  | bound (params : ParamBindings)
  | validated

/-- `Totality`: the pattern, the catalog and what is known of parameters. -/
structure Totality where
  pattern : Pattern
  bindings : List Binding
  params : KnownParameters

/-- The catalog's type of a slot. -/
def valueTypeOf (bindings : List Binding) (slot : Slot) : ValueType :=
  (bindings[slot]?.map Binding.valueType).getD .any

namespace Totality

variable (totality : Totality)

/-- Whether the pattern binds the slot to an entity. -/
def binds (slot : Slot) : Bool :=
  totality.pattern.nodeSlots.contains slot || totality.pattern.relationshipSlots.contains slot

/-- The value of an expression over parameters, if planning knows it. -/
def boundValue (expression : Expression) : Option Ast.PropertyValue :=
  match totality.params with
  | .bound params => Relational.boundValue params expression
  | .validated => none

/-- `has_properties`: a node, relationship, map or null. -/
def hasProperties (slot : Slot) : Bool :=
  totality.binds slot ||
    (match valueTypeOf totality.bindings slot with
      | .node | .relationship | .map | .null => true
      | _ => false)

/-- `id()` of a node, relationship or null. -/
def hasId (slot : Slot) : Bool :=
  totality.binds slot ||
    (match valueTypeOf totality.bindings slot with
      | .node | .relationship | .null => true
      | _ => false)

mutual

/-- `operand`. -/
def operand : Expression → Bool
  | .literal _ | .slot _ => true
  | .list items => operandAll items
  | .map entries => operandEntries entries
  | .parameter name =>
    match totality.params with
    | .bound params => (params.find name).isSome
    | .validated => true
  | .property value key =>
    (match value with | .slot slot => totality.hasProperties slot | _ => false) ||
      (totality.boundValue (.property value key)).isSome
  | .index value offset => (totality.boundValue (.index value offset)).isSome
  | .function .id arguments =>
    match arguments with
    | [.slot slot] => totality.hasId slot
    | _ => false
  | _ => false

/-- Every expression is an operand. -/
def operandAll : List Expression → Bool
  | [] => true
  | item :: items => operand item && operandAll items

/-- Every value of a map is an operand. -/
def operandEntries : List (String × Expression) → Bool
  | [] => true
  | (_, value) :: entries => operand value && operandEntries entries

end

/-- The right side of a total IN: a list or null. -/
def listOperand : Expression → Bool
  | .literal (.list _) | .literal .null => true
  | .slot slot =>
    match valueTypeOf totality.bindings slot with
    | .list | .null => true
    | _ => false
  | .list items => items.all fun item =>
    match item with
    | .literal value => totality.operand (.literal value)
    | .parameter name => totality.operand (.parameter name)
    | item => (totality.boundValue item).isSome
  | .parameter name => isList (totality.boundValue (.parameter name))
  | .property value key => isList (totality.boundValue (.property value key))
  | .index value offset => isList (totality.boundValue (.index value offset))
  | _ => false
where
  isList : Option Ast.PropertyValue → Bool
    | some (.array _) | some .null => true
    | _ => false

/-- A value of a condition that planning knows to be boolean or null. -/
def isCondition : Option Ast.PropertyValue → Bool
  | some (.bool _) | some .null => true
  | _ => false

/-- The comparisons and string tests that fail on no operands. -/
def Binary.isTotal : Binary → Bool
  | .equal | .notEqual | .less | .lessEqual | .greater | .greaterEqual
  | .startsWith | .endsWith | .contains => true
  | _ => false

mutual

/-- `predicate`. -/
def predicate : Expression → Bool
  | .literal (.boolean _) | .literal .null => true
  | .slot slot =>
    match valueTypeOf totality.bindings slot with
    | .boolean | .null => true
    | _ => false
  | .parameter name => isCondition (totality.boundValue (.parameter name))
  | .property value key => isCondition (totality.boundValue (.property value key))
  | .index value offset => isCondition (totality.boundValue (.index value offset))
  | .connective _ operands => predicateAll operands
  | .unary .not negated => predicate negated
  | .unary .isNull value | .unary .isNotNull value => totality.operand value
  | .hasLabel slot _ =>
    totality.pattern.nodeSlots.contains slot ||
      (match valueTypeOf totality.bindings slot with
        | .node | .null => true
        | _ => false)
  | .binary op left right =>
    if op = .isIn then totality.operand left && totality.listOperand right
    else Binary.isTotal op && totality.operand left && totality.operand right
  | _ => false

/-- Every operand of a connective is a predicate. -/
def predicateAll : List Expression → Bool
  | [] => true
  | operand :: operands => predicate operand && predicateAll operands

end

end Totality

/-! ## §2. Rows and requests. -/

/-- A value of the type; every type admits null. -/
def ValueType.Holds : ValueType → Value → Prop
  | .any, _ | _, .null | .boolean, .boolean _ | .integer, .integer _ | .float, .float _
  | .string, .string _ | .list, .list _ | .map, .map _ | .node, .entity (.node _)
  | .relationship, .entity (.relationship _) | .path, .path _ => True
  | _, _ => False

/-- The ID of an entity. -/
def Entity.id : Entity → UInt64
  | .node id | .relationship id => id

namespace Totality

/-- A value that respects the types of its slot; an entity can be read. -/
structure SlotOk (totality : Totality) (graph : Graph) (slot : Slot) (value : Value) : Prop where
  node : slot ∈ totality.pattern.nodeSlots → ValueType.node.Holds value
  relationship : slot ∈ totality.pattern.relationshipSlots → ValueType.relationship.Holds value
  catalog : (valueTypeOf totality.bindings slot).Holds value
  property : ∀ entity, value = .entity entity → ∀ key, ∃ found, graph.property entity key = .ok found
  label : ∀ entity, value = .entity entity → ∃ found, graph.label entity = .ok found

section Supports

variable (totality : Totality) (context : Context) (row : Row)

mutual

/-- Every slot the expression reads holds a value as above.  Parameters are validated: each that it
names has a value, unless planning knows them. -/
def Supports : Expression → Prop
  | .slot slot | .hasLabel slot _ => totality.SlotOk context.graph slot (row slot)
  | .parameter name => totality.params = .validated → ∃ value, context.parameter name = .ok value
  | .literal _ => True
  | .property value _ | .unary _ value => Supports value
  | .index value offset => Supports value ∧ Supports offset
  | .slice value start stop => Supports value ∧ SupportsOption start ∧ SupportsOption stop
  | .binary _ left right => Supports left ∧ Supports right
  | .connective _ items | .function _ items | .list items => SupportsAll items
  | .aggregate _ argument _ => SupportsOption argument
  | .map entries => SupportsEntries entries
  | .case branches otherwise => SupportsBranches branches ∧ Supports otherwise
  | .simpleCase operand branches otherwise =>
    Supports operand ∧ SupportsBranches branches ∧ Supports otherwise

/-- The same for an expression that may be absent. -/
def SupportsOption : Option Expression → Prop
  | some expression => Supports expression
  | none => True

/-- The same for several expressions. -/
def SupportsAll : List Expression → Prop
  | [] => True
  | expression :: expressions => Supports expression ∧ SupportsAll expressions

/-- The same for the values of a map. -/
def SupportsEntries : List (String × Expression) → Prop
  | [] => True
  | (_, expression) :: entries => Supports expression ∧ SupportsEntries entries

/-- The same for the branches of a CASE. -/
def SupportsBranches : List (Expression × Expression) → Prop
  | [] => True
  | (condition, value) :: branches => Supports condition ∧ Supports value ∧ SupportsBranches branches

end

/-- Evaluation reads the parameters planning knows. -/
def Knows : Prop :=
  ∀ params, totality.params = .bound params → context.parameters = params.values

end Supports

section Ids

variable (context : Context) (group : Option (List Row)) (row : Row)

mutual

/-- Every `id()` of a slot that evaluating the expression calls is of an entity with an ID in the
    signed range. -/
def IdsFit : Expression → Prop
  | .function .id [.slot slot] =>
    ∀ entity, row slot = .entity entity → entity.id.toNat < 2 ^ 63
  | .unary _ value => IdsFit value
  | .binary _ left right => IdsFit left ∧ IdsFit right
  | .connective op operands =>
    match operands with
    | [] => True
    | first :: rest => IdsFit first ∧
        ∀ value, eval context group row first = .ok value → IdsFitConnective op rest value
  | .list items => IdsFitAll items
  | .map entries => IdsFitEntries entries
  | _ => True

/-- The operands of a connective up to the one that decides it. -/
def IdsFitConnective (op : Connective) : List Expression → Value → Prop
  | [], _ => True
  | operand :: operands, result => op.decided result = .ok true ∨
      IdsFit operand ∧ ∀ value left right, eval context group row operand = .ok value →
        result.truth = .ok left → value.truth = .ok right →
          IdsFitConnective op operands (.ofTruth (op.combine left right))

/-- Several expressions. -/
def IdsFitAll : List Expression → Prop
  | [] => True
  | expression :: expressions => IdsFit expression ∧ IdsFitAll expressions

/-- The values of a map. -/
def IdsFitEntries : List (String × Expression) → Prop
  | [] => True
  | (_, expression) :: entries => IdsFit expression ∧ IdsFitEntries entries

end

variable {context group row}

/-- `id()` of one slot returns only for an ID in range. -/
theorem idsFit_of_id {slot : Slot} {value : Value}
    (h : callFunction context .id [row slot] = .ok value) (entity : Entity)
    (hentity : row slot = .entity entity) : entity.id.toNat < 2 ^ 63 := by
  rw [hentity] at h
  by_contra hlarge
  cases entity <;> cases (if_neg hlarge).symm.trans h

mutual

/-- **What evaluates has its IDs in range.** -/
theorem idsFit_of_eval : ∀ (e : Expression) (value : Value),
    eval context group row e = .ok value → IdsFit context group row e
  | .unary _ inner, _, h => by
    obtain ⟨a, ha, -⟩ := except_bind_eq_ok.mp h
    exact idsFit_of_eval inner a ha
  | .binary _ left right, _, h => by
    obtain ⟨a, ha, h⟩ := except_bind_eq_ok.mp h
    obtain ⟨b, hb, -⟩ := except_bind_eq_ok.mp h
    exact ⟨idsFit_of_eval left a ha, idsFit_of_eval right b hb⟩
  | .connective _ [], _, _ => trivial
  | .connective op (first :: rest), value, h => by
    obtain ⟨a, ha, hrest⟩ := except_bind_eq_ok.mp h
    refine ⟨idsFit_of_eval first a ha, fun b hb => ?_⟩
    cases ha.symm.trans hb
    exact idsFit_of_evalConnective op rest a value hrest
  | .function function arguments, value, h => by
    unfold IdsFit
    split
    next slot heq =>
      cases heq
      exact idsFit_of_id h
    all_goals trivial
  | .list items, _, h => by
    obtain ⟨values, hvalues, -⟩ := except_bind_eq_ok.mp h
    exact idsFit_of_evalAll items values hvalues
  | .map entries, _, h => by
    obtain ⟨values, hvalues, -⟩ := except_bind_eq_ok.mp h
    exact idsFit_of_evalEntries entries values hvalues
  | .literal _, _, _ | .slot _, _, _ | .parameter _, _, _ | .property _ _, _, _
  | .index _ _, _, _ | .slice _ _ _, _, _ | .aggregate _ _ _, _, _ | .case _ _, _, _
  | .simpleCase _ _ _, _, _ | .hasLabel _ _, _, _ => trivial

theorem idsFit_of_evalConnective (op : Connective) : ∀ (operands : List Expression)
    (result value : Value), evalConnective context group row op result operands = .ok value →
      IdsFitConnective context group row op operands result
  | [], _, _, _ => trivial
  | operand :: operands, result, value, h => by
    obtain ⟨decided, hdecided, h⟩ := except_bind_eq_ok.mp h
    cases decided with
    | true => exact .inl hdecided
    | false =>
      -- The operand is evaluated, and with what it gives the rest is.
      obtain ⟨a, ha, h⟩ := except_bind_eq_ok.mp h
      obtain ⟨l, hl, h⟩ := except_bind_eq_ok.mp h
      obtain ⟨r, hr, h⟩ := except_bind_eq_ok.mp h
      refine .inr ⟨idsFit_of_eval operand a ha, fun b left right hb hleft hright => ?_⟩
      cases ha.symm.trans hb
      cases hl.symm.trans hleft
      cases hr.symm.trans hright
      exact idsFit_of_evalConnective op operands _ value h

theorem idsFit_of_evalAll : ∀ (items : List Expression) (values : List Value),
    evalAll context group row items = .ok values → IdsFitAll context group row items
  | [], _, _ => trivial
  | item :: items, _, h => by
    obtain ⟨a, ha, h⟩ := except_bind_eq_ok.mp h
    obtain ⟨rest, hrest, -⟩ := except_bind_eq_ok.mp h
    exact ⟨idsFit_of_eval item a ha, idsFit_of_evalAll items rest hrest⟩

theorem idsFit_of_evalEntries : ∀ (entries : List (String × Expression))
    (values : List (String × Value)), evalEntries context group row entries = .ok values →
      IdsFitEntries context group row entries
  | [], _, _ => trivial
  | (_, item) :: entries, _, h => by
    obtain ⟨a, ha, h⟩ := except_bind_eq_ok.mp h
    obtain ⟨rest, hrest, -⟩ := except_bind_eq_ok.mp h
    exact ⟨idsFit_of_eval item a ha, idsFit_of_evalEntries entries rest hrest⟩

end

end Ids

/-! ## §3. Operands evaluate. -/

section Evaluates

variable {totality : Totality} {context : Context} (group : Option (List Row))
  {row : Row} {slot : Slot} {value : Value} {e : Expression}

theorem SlotOk.propertyOf (h : totality.SlotOk context.graph slot value) (key : String)
    (hop : totality.hasProperties slot = true) :
    ∃ found, propertyOf context.graph key value = .ok found := by
  have hnode := h.node
  have hrelationship := h.relationship
  have htype := h.catalog
  unfold hasProperties binds at hop
  cases value with
  | null => exact ⟨.null, rfl⟩
  | map entries => exact ⟨_, rfl⟩
  | entity entity => exact h.property entity rfl key
  | _ => grind [ValueType.Holds]

theorem SlotOk.idOf (h : totality.SlotOk context.graph slot value)
    (hop : totality.hasId slot = true)
    (hid : ∀ entity, value = .entity entity → entity.id.toNat < 2 ^ 63) :
    ∃ found, callFunction context .id [value] = .ok found := by
  have hnode := h.node
  have hrelationship := h.relationship
  have htype := h.catalog
  unfold hasId binds at hop
  cases value with
  | null => exact ⟨.null, rfl⟩
  | entity entity =>
    cases entity with
    | node id | relationship id => exact ⟨_, if_pos (hid _ rfl)⟩
  | _ => grind [ValueType.Holds]

theorem SlotOk.hasLabel (h : totality.SlotOk context.graph slot (row slot)) {label : String}
    (hop : totality.predicate (.hasLabel slot label) = true) :
    ∃ truth, eval context group row (.hasLabel slot label) = .ok (.ofTruth truth) := by
  have hnode := h.node
  have htype := h.catalog
  have hlabel := h.label
  unfold predicate at hop
  rw [eval]
  cases hvalue : row slot with
  | null => exact ⟨none, rfl⟩
  | entity entity =>
    cases entity with
    | node id =>
      obtain ⟨stored, hstored⟩ := hlabel _ hvalue
      exact ⟨some (stored == some label), by simp only [hstored]; rfl⟩
    | relationship id => grind [ValueType.Holds]
  | _ => grind [ValueType.Holds]

theorem boundValue_evaluates (h : totality.Knows context) {value : Ast.PropertyValue}
    (hvalue : totality.boundValue e = some value) :
    ∃ result, ofProperty value = some result ∧ eval context group row e = .ok result := by
  unfold Totality.boundValue at hvalue
  split at hvalue
  next params hparams => exact boundValue_eval (h params hparams) group row hvalue
  next => cases hvalue

/-- Access that planning resolves evaluates. -/
theorem isSome_evaluates (h : totality.Knows context)
    (hsome : (totality.boundValue e).isSome = true) :
    ∃ result, eval context group row e = .ok result := by
  obtain ⟨value, hvalue⟩ := Option.isSome_iff_exists.mp hsome
  obtain ⟨result, -, heval⟩ := boundValue_evaluates group h hvalue
  exact ⟨result, heval⟩

mutual

theorem operand_evaluates (h : totality.Knows context) :
    ∀ e : Expression, totality.Supports context row e → IdsFit context group row e →
      totality.operand e = true → ∃ value, eval context group row e = .ok value
  | .literal value, _, _, _ => ⟨value, rfl⟩
  | .slot slot, _, _, _ => ⟨row slot, rfl⟩
  | .parameter name, hreads, _, hop => by
    rw [operand] at hop
    split at hop
    next params hparams =>
      obtain ⟨value, hvalue⟩ := Option.isSome_iff_exists.mp hop
      exact ⟨_, parameter_eval (h params hparams) hvalue⟩
    next hparams => exact hreads hparams
  | .list items, hreads, hids, hop => by
    obtain ⟨values, hvalues⟩ := operandAll_evaluates h items hreads hids hop
    exact ⟨.list values, by rw [eval, hvalues]; rfl⟩
  | .map entries, hreads, hids, hop => by
    obtain ⟨values, hvalues⟩ := operandEntries_evaluates h entries hreads hids hop
    exact ⟨_, by rw [eval, hvalues]; rfl⟩
  | .property value key, hreads, _, hop => by
    unfold operand at hop
    rcases Bool.or_eq_true_iff.mp hop with hslot | hbound
    · split at hslot
      next slot => exact SlotOk.propertyOf hreads key hslot
      next => cases hslot
    · exact isSome_evaluates group h hbound
  | .index _ _, _, _, hop => isSome_evaluates group h hop
  | .function function arguments, hreads, hids, hop => by
    cases function with
    | id =>
      unfold operand at hop
      split at hop
      next slot => exact SlotOk.idOf hreads.1 hop hids
      next => cases hop
    | _ => cases hop
  | .slice _ _ _, _, _, hop | .unary _ _, _, _, hop | .binary _ _ _, _, _, hop
  | .connective _ _, _, _, hop | .aggregate _ _ _, _, _, hop | .case _ _, _, _, hop
  | .simpleCase _ _ _, _, _, hop | .hasLabel _ _, _, _, hop => nomatch hop

theorem operandAll_evaluates (h : totality.Knows context) :
    ∀ items : List Expression, totality.SupportsAll context row items →
      IdsFitAll context group row items → totality.operandAll items = true →
      ∃ values, evalAll context group row items = .ok values
  | [], _, _, _ => ⟨[], rfl⟩
  | item :: items, hreads, hids, hop => by
    rw [operandAll, Bool.and_eq_true] at hop
    obtain ⟨value, hvalue⟩ := operand_evaluates h item hreads.1 hids.1 hop.1
    obtain ⟨values, hvalues⟩ := operandAll_evaluates h items hreads.2 hids.2 hop.2
    exact ⟨value :: values, by rw [evalAll, hvalue, hvalues]; rfl⟩

theorem operandEntries_evaluates (h : totality.Knows context) :
    ∀ entries : List (String × Expression), totality.SupportsEntries context row entries →
      IdsFitEntries context group row entries → totality.operandEntries entries = true →
      ∃ values, evalEntries context group row entries = .ok values
  | [], _, _, _ => ⟨[], rfl⟩
  | (key, item) :: entries, hreads, hids, hop => by
    rw [operandEntries, Bool.and_eq_true] at hop
    obtain ⟨value, hvalue⟩ := operand_evaluates h item hreads.1 hids.1 hop.1
    obtain ⟨values, hvalues⟩ := operandEntries_evaluates h entries hreads.2 hids.2 hop.2
    exact ⟨(key, value) :: values, by rw [evalEntries, hvalue, hvalues]; rfl⟩

end

/-! ## §4. Predicates evaluate. -/

/-- Every member of an accepted list is an operand. -/
theorem operandAll_of_listOperand : ∀ {items : List Expression},
    totality.listOperand (.list items) = true → totality.operandAll items = true
  | [], _ => rfl
  | item :: items, hlist => by
    rw [listOperand, List.all_cons, Bool.and_eq_true] at hlist
    rw [operandAll, Bool.and_eq_true]
    refine ⟨?_, operandAll_of_listOperand hlist.2⟩
    have hitem := hlist.1
    cases item with
    | literal value | parameter name | index value offset => exact hitem
    | property value key => exact Bool.or_eq_true_iff.mpr (.inr hitem)
    | _ => unfold boundValue Relational.boundValue at hitem; grind

/-- A value that planning knows evaluates to a list or null. -/
theorem isList_evaluates (h : totality.Knows context)
    (hlist : listOperand.isList (totality.boundValue e) = true) :
    ∃ value, eval context group row e = .ok value ∧
      (value = .null ∨ ∃ members, value = .list members) := by
  unfold listOperand.isList at hlist
  split at hlist
  next values hvalue =>
    obtain ⟨result, hresult, heval⟩ := boundValue_evaluates group h hvalue
    obtain ⟨members, -, rfl⟩ := Option.map_eq_some_iff.mp hresult
    exact ⟨_, heval, .inr ⟨members, rfl⟩⟩
  next hvalue =>
    obtain ⟨result, hresult, heval⟩ := boundValue_evaluates group h hvalue
    cases hresult
    exact ⟨_, heval, .inl rfl⟩
  next => cases hlist

theorem listOperand_evaluates (h : totality.Knows context)
    (hreads : totality.Supports context row e) (hids : IdsFit context group row e)
    (hlist : totality.listOperand e = true) :
    ∃ value, eval context group row e = .ok value ∧
      (value = .null ∨ ∃ members, value = .list members) := by
  cases e with
  | literal value =>
    refine ⟨value, rfl, ?_⟩
    cases value with
    | null => exact .inl rfl
    | list members => exact .inr ⟨members, rfl⟩
    | _ => cases hlist
  | slot slot =>
    have htype := SlotOk.catalog hreads
    refine ⟨row slot, rfl, ?_⟩
    unfold listOperand at hlist
    cases hvalue : row slot <;> grind [ValueType.Holds]
  | list items =>
    obtain ⟨members, hmembers⟩ :=
      operandAll_evaluates group h items hreads hids (operandAll_of_listOperand hlist)
    exact ⟨.list members, by rw [eval, hmembers]; rfl, .inr ⟨members, rfl⟩⟩
  | parameter _ | property _ _ | index _ _ => exact isList_evaluates group h hlist
  | _ => cases hlist

theorem binary_evaluates {op : Binary} (hop : Binary.isTotal op = true) (builtins : Builtins)
    (a b : Value) : ∃ truth, binary builtins op a b = .ok (.ofTruth truth) := by
  cases op with
  | equal | notEqual => exact ⟨_, rfl⟩
  | less | lessEqual | greater | greaterEqual =>
    simp only [binary, Binary.isComparison, if_true]
    split_ifs
    · exact ⟨none, rfl⟩
    · exact ⟨some false, rfl⟩
    · exact ⟨_, rfl⟩
  | startsWith | endsWith | contains =>
    simp only [binary, Binary.isComparison, Bool.false_eq_true, if_false]
    split
    · exact ⟨none, rfl⟩
    · split
      · exact ⟨some _, rfl⟩
      · exact ⟨none, rfl⟩
  | _ => cases hop

theorem isCondition_evaluates (h : totality.Knows context)
    (hcondition : isCondition (totality.boundValue e) = true) :
    ∃ truth, eval context group row e = .ok (.ofTruth truth) := by
  unfold isCondition at hcondition
  split at hcondition
  next value hvalue =>
    obtain ⟨result, hresult, heval⟩ := boundValue_evaluates group h hvalue
    cases hresult
    exact ⟨some value, heval⟩
  next hvalue =>
    obtain ⟨result, hresult, heval⟩ := boundValue_evaluates group h hvalue
    cases hresult
    exact ⟨none, heval⟩
  next => cases hcondition

theorem truth_ofTruth (truth : Option Bool) : (Value.ofTruth truth).truth = .ok truth := by
  cases truth <;> rfl

mutual

theorem predicate_evaluates (h : totality.Knows context) :
    ∀ e : Expression, totality.Supports context row e → IdsFit context group row e →
      totality.predicate e = true → ∃ truth, eval context group row e = .ok (.ofTruth truth)
  | .literal value, _, _, hop => by
    cases value with
    | boolean value => exact ⟨some value, rfl⟩
    | null => exact ⟨none, rfl⟩
    | _ => cases hop
  | .slot slot, hreads, _, hop => by
    have htype := SlotOk.catalog hreads
    unfold predicate at hop
    rw [eval]
    cases hvalue : row slot with
    | null => exact ⟨none, rfl⟩
    | boolean value => exact ⟨some value, rfl⟩
    | _ => grind [ValueType.Holds]
  | .parameter _, _, _, hop | .property _ _, _, _, hop | .index _ _, _, _, hop =>
    isCondition_evaluates group h hop
  | .connective op [], _, _, _ => ⟨none, rfl⟩
  | .connective op (first :: rest), hreads, hids, hop => by
    rw [predicate, predicateAll, Bool.and_eq_true] at hop
    obtain ⟨truth, hfirst⟩ := predicate_evaluates h first hreads.1 hids.1 hop.1
    obtain ⟨result, hrest⟩ :=
      predicateAll_evaluates h rest hreads.2 hop.2 op truth (hids.2 _ hfirst)
    exact ⟨result, by rw [eval, hfirst]; exact hrest⟩
  | .unary op value, hreads, hids, hop => by
    rw [eval]
    cases op with
    | not =>
      obtain ⟨truth, hvalue⟩ := predicate_evaluates h value hreads hids hop
      exact ⟨truth.map fun value => !value, by rw [hvalue]; cases truth <;> rfl⟩
    | isNull | isNotNull =>
      obtain ⟨value, hvalue⟩ := operand_evaluates group h value hreads hids hop
      exact ⟨some _, by rw [hvalue]; rfl⟩
    | _ => cases hop
  | .hasLabel slot label, hreads, _, hop => SlotOk.hasLabel group hreads hop
  | .binary op left right, hreads, hids, hop => by
    rw [predicate] at hop
    rw [eval]
    split at hop
    next hin =>
      subst hin
      rw [Bool.and_eq_true] at hop
      obtain ⟨value, hvalue⟩ := operand_evaluates group h left hreads.1 hids.1 hop.1
      obtain ⟨list, hlist, hmembers⟩ := listOperand_evaluates group h hreads.2 hids.2 hop.2
      rw [hvalue, hlist]
      rcases hmembers with rfl | ⟨members, rfl⟩
      · exact ⟨none, rfl⟩
      · exact ⟨_, rfl⟩
    next =>
      rw [Bool.and_eq_true, Bool.and_eq_true] at hop
      obtain ⟨a, ha⟩ := operand_evaluates group h left hreads.1 hids.1 hop.1.2
      obtain ⟨b, hb⟩ := operand_evaluates group h right hreads.2 hids.2 hop.2
      rw [ha, hb]
      exact binary_evaluates hop.1.1 context.builtins a b
  | .slice _ _ _, _, _, hop | .function _ _, _, _, hop | .aggregate _ _ _, _, _, hop
  | .list _, _, _, hop | .map _, _, _, hop | .case _ _, _, _, hop
  | .simpleCase _ _ _, _, _, hop => nomatch hop

/-- The running result of a connective stays boolean or null. -/
theorem predicateAll_evaluates (h : totality.Knows context) :
    ∀ operands : List Expression, totality.SupportsAll context row operands →
      totality.predicateAll operands = true → ∀ (op : Connective) (truth : Option Bool),
      IdsFitConnective context group row op operands (.ofTruth truth) → ∃ result,
        evalConnective context group row op (.ofTruth truth) operands = .ok (.ofTruth result)
  | [], _, _, _, truth, _ => ⟨truth, rfl⟩
  | operand :: operands, hreads, hop, op, truth, hids => by
    rw [predicateAll, Bool.and_eq_true] at hop
    have hdecided : ∃ decided, op.decided (.ofTruth truth) = .ok decided := by
      cases op <;> exact ⟨_, by simp only [Connective.decided, truth_ofTruth]; rfl⟩
    obtain ⟨decided, hdecided⟩ := hdecided
    rw [evalConnective, hdecided]
    cases decided with
    | true => exact ⟨truth, rfl⟩
    | false =>
      rcases hids with hdone | ⟨hid, hids⟩
      · cases hdecided.symm.trans hdone
      obtain ⟨right, hright⟩ := predicate_evaluates h operand hreads.1 hid hop.1
      obtain ⟨result, hresult⟩ :=
        predicateAll_evaluates h operands hreads.2 hop.2 op (op.combine truth right)
          (hids _ _ _ hright (truth_ofTruth truth) (truth_ofTruth right))
      refine ⟨result, ?_⟩
      rw [hright, truth_ofTruth]
      show ((Value.ofTruth right).truth >>= fun right =>
        evalConnective context group row op (.ofTruth (op.combine truth right)) operands) = _
      rwa [truth_ofTruth]

end

end Evaluates

/-- A MATCH over one node. -/
def oneNode : Totality := ⟨⟨[⟨0, none, []⟩], [], []⟩, [], .validated⟩

/-- A graph with one node. -/
def graphOf (id : UInt64) : Context where
  graph := ⟨[⟨id, none, []⟩], [], by simp, by simp, nofun⟩
  parameters := []
  builtins := ⟨fun _ _ _ => .ok .null, fun _ _ _ => .ok .null, fun _ _ _ => .ok .null⟩

/-- The row that binds that node. -/
def rowOf (id : UInt64) : Row := fun _ => .entity (.node id)

theorem slotOk_graphOf (id : UInt64) : oneNode.SlotOk (graphOf id).graph 0 (rowOf id 0) := by
  have hfound : (graphOf id).graph.node id = some ⟨id, none, []⟩ := by simp [graphOf, Graph.node]
  refine ⟨fun _ => trivial, nofun, trivial, ?_, ?_⟩
  · rintro _ ⟨rfl⟩ key
    refine ⟨.null, ?_⟩
    simp only [Graph.property, Graph.properties, hfound]
    rfl
  · rintro _ ⟨rfl⟩
    exact ⟨none, by simp [Graph.label, hfound]⟩

end Totality

end HelixDb.Relational
