/-
  HelixDb.Relational.Expression

  **RESOLVED EXPRESSIONS** of a graph query.

  Names are resolved to slots before a query is built.  A connective is one flat
  node over its operands; the two forms of CASE evaluate their branches lazily.
-/
import HelixDb.Relational.Value

namespace HelixDb.Relational

/-- A logical binding of the query. -/
abbrev Slot := Nat

/-- The unary operators. -/
inductive Unary where
  | not | negate | positive | isNull | isNotNull
deriving DecidableEq

/-- The binary operators. -/
inductive Binary where
  | add | subtract | multiply | divide | modulo | power
  | equal | notEqual | less | lessEqual | greater | greaterEqual
  | isIn | startsWith | endsWith | contains
deriving DecidableEq

/-- The logical connectives. -/
inductive Connective where
  | and | or | xor
deriving DecidableEq

/-- The scalar functions. -/
inductive Function where
  | id | type | labels | properties | keys | size | length | nodes | relationships | head | last
  | coalesce | toString | toInteger | toFloat | toBoolean | exists | abs | range | reverse
  | trim | ltrim | rtrim | toLower | toUpper | substring
deriving DecidableEq

/-- The aggregate functions. -/
inductive Aggregate where
  | count | sum | avg | min | max | collect
deriving DecidableEq

/-- The expressions of a query. -/
inductive Expression where
  | literal (value : Value)
  | slot (slot : Slot)
  | parameter (name : String)
  | property (value : Expression) (key : String)
  | index (value index : Expression)
  | slice (value : Expression) (start stop : Option Expression)
  | unary (op : Unary) (value : Expression)
  | binary (op : Binary) (left right : Expression)
  | connective (op : Connective) (operands : List Expression)
  | function (function : Function) (arguments : List Expression)
  | aggregate (function : Aggregate) (argument : Option Expression) (distinct : Bool)
  | list (items : List Expression)
  | map (entries : List (String × Expression))
  | case (branches : List (Expression × Expression)) (otherwise : Expression)
  | simpleCase (operand : Expression) (branches : List (Expression × Expression))
      (otherwise : Expression)
  | hasLabel (slot : Slot) (label : String)

namespace Expression

mutual

/-- Whether an aggregate occurs in it. -/
def hasAggregate : Expression → Bool
  | .aggregate _ _ _ => true
  | .literal _ | .slot _ | .parameter _ | .hasLabel _ _ => false
  | .property value _ | .unary _ value => hasAggregate value
  | .index value offset => hasAggregate value || hasAggregate offset
  | .slice value start stop =>
    hasAggregate value || anyAggregateOption start || anyAggregateOption stop
  | .binary _ left right => hasAggregate left || hasAggregate right
  | .connective _ operands => anyAggregate operands
  | .function _ arguments => anyAggregate arguments
  | .list items => anyAggregate items
  | .map entries => anyAggregateEntry entries
  | .case branches otherwise => anyAggregateBranch branches || hasAggregate otherwise
  | .simpleCase operand branches otherwise =>
    hasAggregate operand || anyAggregateBranch branches || hasAggregate otherwise

/-- In an expression that may be left out. -/
def anyAggregateOption : Option Expression → Bool
  | some expression => hasAggregate expression
  | none => false

/-- In one of the expressions. -/
def anyAggregate : List Expression → Bool
  | [] => false
  | expression :: expressions => hasAggregate expression || anyAggregate expressions

/-- In an entry of a map. -/
def anyAggregateEntry : List (String × Expression) → Bool
  | [] => false
  | (_, expression) :: entries => hasAggregate expression || anyAggregateEntry entries

/-- In a branch. -/
def anyAggregateBranch : List (Expression × Expression) → Bool
  | [] => false
  | (condition, value) :: branches =>
    hasAggregate condition || hasAggregate value || anyAggregateBranch branches

end

end Expression

end HelixDb.Relational
