/-
  HelixDb.Relational.Parameters

  **PARAMETERS** as planning and execution read them.

  A request's parameters are converted twice: to property values, which planning
  looks up, and to query values, which evaluation reads.  `boundValue` resolves
  `$p`, `$p.key`, `$p['key']` and `$p[1]` at planning time.

    • `boundValue_eval` — whatever planning resolves, evaluation yields.
-/
import HelixDb.Relational.Evaluation
import HelixDb.Ast.PropertyValue
import HelixDb.Lib.FoldM

namespace HelixDb.Relational

open HelixDb.Lib Option

/-! ## §1. Values of parameters. -/

/-- `query::QueryValue`. -/
inductive QueryValue where
  | null
  | bool (value : Bool)
  | i64 (value : Int64)
  | f64 (bits : UInt64)
  | f32 (bits : UInt32)
  | string (value : String)
  | array (values : List QueryValue)
  | object (entries : List (String × QueryValue))

namespace QueryValue

mutual

/-- `PropertyValue::from`. -/
def toProperty : QueryValue → Ast.PropertyValue
  | .null => .null
  | .bool value => .bool value
  | .i64 value => .i64 value
  | .f64 bits => .f64 bits
  | .f32 bits => .f32 bits
  | .string value => .string value
  | .array values => .array (toProperties values)
  | .object entries => .object (toPropertyEntries entries)

/-- The elements of an array. -/
def toProperties : List QueryValue → List Ast.PropertyValue
  | [] => []
  | value :: values => toProperty value :: toProperties values

/-- The entries of an object. -/
def toPropertyEntries : List (String × QueryValue) → List (String × Ast.PropertyValue)
  | [] => []
  | (key, value) :: entries => (key, toProperty value) :: toPropertyEntries entries

end

mutual

/-- `parameter_value`. -/
def toValue : QueryValue → Value
  | .null => .null
  | .bool value => .boolean value
  | .i64 value => .integer value
  | .f64 bits => .float bits
  | .f32 bits => .float (Ast.f64FromF32 bits)
  | .string value => .string value
  | .array values => .list (toValues values)
  | .object entries => .map (toValueEntries entries)

/-- The elements of an array. -/
def toValues : List QueryValue → List Value
  | [] => []
  | value :: values => toValue value :: toValues values

/-- The entries of an object. -/
def toValueEntries : List (String × QueryValue) → List (String × Value)
  | [] => []
  | (key, value) :: entries => (key, toValue value) :: toValueEntries entries

end

end QueryValue

mutual

/-- The query value a property value stands for; temporal and binary values have
none. -/
def ofProperty : Ast.PropertyValue → Option Value
  | .null => some .null
  | .bool value => some (.boolean value)
  | .i64 value => some (.integer value)
  | .f64 bits => some (.float bits)
  | .f32 bits => some (.float (Ast.f64FromF32 bits))
  | .string value => some (.string value)
  | .i64Array values => some (.list (values.map .integer))
  | .f64Array values => some (.list (values.map .float))
  | .f32Array values => some (.list (values.map fun bits => .float (Ast.f64FromF32 bits)))
  | .stringArray values => some (.list (values.map .string))
  | .array values => (ofProperties values).map .list
  | .object entries => (ofPropertyEntries entries).map .map
  | .dateTime _ | .bytes _ => none

/-- The elements of an array. -/
def ofProperties : List Ast.PropertyValue → Option (List Value)
  | [] => some []
  | value :: values => do
    let value ← ofProperty value
    let values ← ofProperties values
    pure (value :: values)

/-- The entries of an object. -/
def ofPropertyEntries : List (String × Ast.PropertyValue) → Option (List (String × Value))
  | [] => some []
  | (key, value) :: entries => do
    let value ← ofProperty value
    let entries ← ofPropertyEntries entries
    pure ((key, value) :: entries)

end

mutual

theorem ofProperty_toProperty :
    ∀ value : QueryValue, ofProperty value.toProperty = some value.toValue
  | .null | .bool _ | .i64 _ | .f64 _ | .f32 _ | .string _ => rfl
  | .array values => by
    rw [QueryValue.toProperty, ofProperty, ofProperties_toProperties values]
    rfl
  | .object entries => by
    rw [QueryValue.toProperty, ofProperty, ofPropertyEntries_toPropertyEntries entries]
    rfl

theorem ofProperties_toProperties : ∀ values : List QueryValue,
    ofProperties (QueryValue.toProperties values) = some (QueryValue.toValues values)
  | [] => rfl
  | value :: values => by
    rw [QueryValue.toProperties, ofProperties, ofProperty_toProperty value,
      ofProperties_toProperties values]
    rfl

theorem ofPropertyEntries_toPropertyEntries : ∀ entries : List (String × QueryValue),
    ofPropertyEntries (QueryValue.toPropertyEntries entries) =
      some (QueryValue.toValueEntries entries)
  | [] => rfl
  | (key, value) :: entries => by
    rw [QueryValue.toPropertyEntries, ofPropertyEntries, ofProperty_toProperty value,
      ofPropertyEntries_toPropertyEntries entries]
    rfl

end

theorem ofProperties_getElem? : ∀ {values : List Ast.PropertyValue} {results : List Value}
    {i : Nat} {value : Ast.PropertyValue}, ofProperties values = some results →
    values[i]? = some value → ∃ result, ofProperty value = some result ∧ results[i]? = some result
  | [], _, _, _, _, h => nomatch h
  | first :: rest, results, i, value, h, hi => by
    rw [ofProperties, bind_eq_bind, bind_eq_some_iff] at h
    obtain ⟨firstResult, hfirst, h⟩ := h
    rw [bind_eq_bind, bind_eq_some_iff] at h
    obtain ⟨restResults, hrest, h⟩ := h
    cases h
    cases i with
    | zero =>
      cases hi
      exact ⟨firstResult, hfirst, rfl⟩
    | succ i =>
      have htail := ofProperties_getElem? hrest hi
      exact htail

theorem ofProperties_length : ∀ {values : List Ast.PropertyValue} {results : List Value},
    ofProperties values = some results → results.length = values.length
  | [], _, h => by cases h; rfl
  | first :: rest, results, h => by
    rw [ofProperties, bind_eq_bind, bind_eq_some_iff] at h
    obtain ⟨firstResult, _, h⟩ := h
    rw [bind_eq_bind, bind_eq_some_iff] at h
    obtain ⟨restResults, hrest, h⟩ := h
    cases h
    exact congrArg (· + 1) (ofProperties_length hrest)

/-! ## §2. Resolving at planning time. -/

/-- The parameters of a request. -/
abbrev ParamBindings := List (String × QueryValue)

/-- The binding of a name. -/
def ParamBindings.find (params : ParamBindings) (name : String) : Option QueryValue :=
  (params.find? fun entry => entry.1 == name).map Prod.snd

/-- The bindings as values. -/
def ParamBindings.values (params : ParamBindings) : List (String × Value) :=
  params.map fun entry => (entry.1, entry.2.toValue)

/-- An entry of an object; null stays null. -/
def boundEntry (value : Ast.PropertyValue) (key : String) : Option Ast.PropertyValue :=
  match value with
  | .object entries => some (((entries.find? fun entry => entry.1 == key).map Prod.snd).getD .null)
  | .null => some .null
  | _ => none

/-- An element of an array; beyond either end is null. -/
def boundElement (value : Ast.PropertyValue) (index : Int64) : Option Ast.PropertyValue :=
  match value with
  | .array values =>
    some ((position index.toInt values.length).elim .null fun i => values.getD i .null)
  | .i64Array values =>
    some ((position index.toInt values.length).elim .null fun i => .i64 (values.getD i 0))
  | .f64Array values =>
    some ((position index.toInt values.length).elim .null fun i => .f64 (values.getD i 0))
  | .f32Array values =>
    some ((position index.toInt values.length).elim .null fun i => .f32 (values.getD i 0))
  | .stringArray values =>
    some ((position index.toInt values.length).elim .null fun i => .string (values.getD i ""))
  | .null => some .null
  | _ => none

/-- `bound_value`: access that could fail has no value here. -/
def boundValue (params : ParamBindings) : Expression → Option Ast.PropertyValue
  | .parameter name => (params.find name).map QueryValue.toProperty
  | .property value key => (boundValue params value).bind fun value => boundEntry value key
  | .index value (.literal (.string key)) =>
    (boundValue params value).bind fun value => boundEntry value key
  | .index value (.literal (.integer index)) =>
    (boundValue params value).bind fun value => boundElement value index
  | .index value (.literal .null) =>
    (boundValue params value).bind fun value =>
      match value with
      | .null => some .null
      | _ => none
  | _ => none

/-! ## §3. Evaluation agrees. -/

theorem position_lt {index : Int} {length i : Nat} (h : position index length = some i) :
    i < length := by
  simp only [position] at h
  generalize (if index < 0 then (length : Int) + index else index) = shifted at h
  split_ifs at h with hbounds
  cases h
  omega

/-- Reading an element converts with it. -/
private theorem element_map {α : Type} {values : List α} {default : α} {index : Int}
    (toProperty : α → Ast.PropertyValue) (toValue : α → Value)
    (h : ∀ a, ofProperty (toProperty a) = some (toValue a)) :
    ofProperty ((position index values.length).elim .null fun i =>
        toProperty (values.getD i default)) =
      some ((position index (values.map toValue).length).elim .null fun i =>
        (values.map toValue).getD i .null) := by
  rw [List.length_map]
  cases hpos : position index values.length with
  | none => rfl
  | some i =>
    have hi := position_lt hpos
    show ofProperty (toProperty (values.getD i default)) = _
    rw [h, elim_some, List.getD_eq_getElem _ _ hi,
      List.getD_eq_getElem _ _ (by rwa [List.length_map]), List.getElem_map]

theorem boundElement_eval {graph : Graph} {value element : Ast.PropertyValue} {result : Value}
    {index : Int64} (hvalue : ofProperty value = some result)
    (h : boundElement value index = some element) :
    ∃ out, ofProperty element = some out ∧
      indexOf graph result (.integer index) = .ok out := by
  unfold boundElement at h
  split at h
  case h_1 values =>
      cases h
      rw [ofProperty, map_eq_some_iff] at hvalue
      obtain ⟨results, hresults, rfl⟩ := hvalue
      refine ⟨_, ?_, rfl⟩
      rw [ofProperties_length hresults]
      cases hpos : position index.toInt values.length with
      | none => rfl
      | some i =>
        have hi := position_lt hpos
        obtain ⟨out, hout, hget⟩ :=
          ofProperties_getElem? hresults (List.getElem?_eq_getElem hi)
        show ofProperty (values.getD i .null) = some (results.getD i .null)
        rw [List.getD_eq_getElem _ _ hi, hout, List.getD_eq_getElem?_getD, hget]
        rfl
  case h_2 values =>
      cases h
      cases hvalue
      exact ⟨_, element_map .i64 .integer fun _ => rfl, rfl⟩
  case h_3 values =>
      cases h
      cases hvalue
      exact ⟨_, element_map .f64 .float fun _ => rfl, rfl⟩
  case h_4 values =>
      cases h
      cases hvalue
      exact ⟨_, element_map .f32 (fun bits => .float (Ast.f64FromF32 bits)) fun _ => rfl, rfl⟩
  case h_5 values =>
      cases h
      cases hvalue
      exact ⟨_, element_map .string .string fun _ => rfl, rfl⟩
  case h_6 =>
      cases h
      cases hvalue
      exact ⟨.null, rfl, rfl⟩
  case h_7 => cases h

theorem ofPropertyEntries_find {key : String} : ∀ {entries : List (String × Ast.PropertyValue)}
    {results : List (String × Value)}, ofPropertyEntries entries = some results →
    ofProperty (((entries.find? fun entry => entry.1 == key).map Prod.snd).getD .null) =
      some (lookupEntry results key)
  | [], _, h => by cases h; rfl
  | (name, value) :: rest, results, h => by
    rw [ofPropertyEntries, bind_eq_bind, bind_eq_some_iff] at h
    obtain ⟨result, hresult, h⟩ := h
    rw [bind_eq_bind, bind_eq_some_iff] at h
    obtain ⟨restResults, hrest, h⟩ := h
    cases h
    unfold lookupEntry
    cases hname : name == key with
    | true =>
      simp only [List.find?_cons, hname]
      exact hresult
    | false =>
      simp only [List.find?_cons, hname]
      exact ofPropertyEntries_find hrest

theorem boundEntry_eval {value entry : Ast.PropertyValue} {result : Value} {key : String}
    (hvalue : ofProperty value = some result) (h : boundEntry value key = some entry) :
    ∃ out, ofProperty entry = some out ∧
      (result = .null ∧ out = .null ∨
        ∃ entries, result = .map entries ∧ out = lookupEntry entries key) := by
  unfold boundEntry at h
  split at h
  · cases h
    rw [ofProperty, map_eq_some_iff] at hvalue
    obtain ⟨results, hresults, rfl⟩ := hvalue
    exact ⟨_, ofPropertyEntries_find hresults, .inr ⟨results, rfl, rfl⟩⟩
  · cases h
    cases hvalue
    exact ⟨.null, rfl, .inl ⟨rfl, rfl⟩⟩
  · cases h

variable {context : Context} {params : ParamBindings}

theorem parameter_eval (hparams : context.parameters = params.values) {name : String}
    {value : QueryValue} (h : params.find name = some value) :
    context.parameter name = .ok value.toValue := by
  rw [ParamBindings.find, map_eq_some_iff] at h
  obtain ⟨entry, hentry, rfl⟩ := h
  unfold Context.parameter
  have hfind : (params.values.find? fun entry => entry.1 == name) =
      some (entry.1, entry.2.toValue) := by
    unfold ParamBindings.values
    rw [List.find?_map, Function.comp_def, hentry]
    rfl
  rw [hparams, hfind]

/-- **What planning resolves, evaluation yields.** -/
theorem boundValue_eval (hparams : context.parameters = params.values)
    (group : Option (List Row)) (row : Row) {expression : Expression} :
    ∀ {value : Ast.PropertyValue}, boundValue params expression = some value →
      ∃ result, ofProperty value = some result ∧
        eval context group row expression = .ok result := by
  fun_induction boundValue params expression with
  | case1 name =>
    intro value h
    rw [map_eq_some_iff] at h
    obtain ⟨bound, hbound, rfl⟩ := h
    exact ⟨_, ofProperty_toProperty bound, parameter_eval hparams hbound⟩
  | case2 inner key ih | case3 inner key ih =>
    intro value h
    rw [bind_eq_some_iff] at h
    obtain ⟨innerValue, hinner, h⟩ := h
    obtain ⟨innerResult, hconv, heval⟩ := ih hinner
    obtain ⟨out, hout, hcases⟩ := boundEntry_eval hconv h
    refine ⟨out, hout, ?_⟩
    rw [eval, heval]
    rcases hcases with ⟨rfl, rfl⟩ | ⟨entries, rfl, rfl⟩ <;> rfl
  | case4 inner index ih =>
    intro value h
    rw [bind_eq_some_iff] at h
    obtain ⟨innerValue, hinner, h⟩ := h
    obtain ⟨innerResult, hconv, heval⟩ := ih hinner
    obtain ⟨out, hout, hindex⟩ := boundElement_eval hconv h
    refine ⟨out, hout, ?_⟩
    rwa [eval, heval]
  | case5 inner ih =>
    intro value h
    rw [bind_eq_some_iff] at h
    obtain ⟨innerValue, hinner, h⟩ := h
    obtain ⟨innerResult, hconv, heval⟩ := ih hinner
    split at h
    · cases h
      cases hconv
      refine ⟨.null, rfl, ?_⟩
      rw [eval, heval]
      rfl
    · cases h
  | case6 => intro value h; cases h

end HelixDb.Relational
