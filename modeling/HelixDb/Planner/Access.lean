/-
  HelixDb.Planner.Access

  **NODE ACCESS PLANS** and the sets of nodes they read.

  A plan is a tree of unions and intersections over scans, point reads, index
  lookups and sources that only the run knows (parameters, variables, searches,
  unions of filtered branches).  Over a stored graph it stands for a set of node
  identifiers.  A label, an equality and a range lookup read the nodes of their
  label; a missing property counts as null in an equality lookup, which serves
  null by a scan, and is in no range.
-/
import HelixDb.Planner.IndexRange

namespace HelixDb.Planner

open HelixDb.Lib
open HelixDb.Ast (PropertyValue)

/-! ## §1. Plans. -/

/-- Literal value that can be looked up in a secondary equality index: not a
nested array or object. -/
structure SecondaryIndexLiteral where
  value : PropertyValue
  flat : match value with | .array _ | .object _ => False | _ => True

/-- Equality-index lookup value; `runtime` is a parameter or a parameter set. -/
inductive IndexValue where
  | literal (value : SecondaryIndexLiteral)
  | runtime (param : Nat)
  | literalSet (values : List SecondaryIndexLiteral)

/-- A property of a label. -/
structure ScopedPropertyKey where
  label : String
  property : String
deriving DecidableEq

/-- The order of a range index. -/
inductive RangeIndexDirection where
  | asc
  | desc
deriving DecidableEq

/-- A range index of a property of a label. -/
structure ScopedPropertyDirectionKey where
  label : String
  property : String
  direction : RangeIndexDirection
deriving DecidableEq

/-- Along the index or against it. -/
inductive RangeScanIteration where
  | forward
  | reverse
deriving DecidableEq

/-- Node access plan without residual filters.  `search` is a vector or a text
search of a label, `source` a parameter, a variable or a union of filtered
branches. -/
inductive NodeAccessPlan where
  | empty
  | pointIds (ids : List Nat)
  | allScan
  | labelScan (label : String)
  | equalityIndex (index : String) (key : ScopedPropertyKey) (value : IndexValue)
  | rangeIndex (index : String) (key : ScopedPropertyDirectionKey) (range : IndexRange)
      (iteration : RangeScanIteration)
  | search (label : String) (query : Nat)
  | source (name : Nat)
  | intersect (plans : List NodeAccessPlan)
  | union (plans : List NodeAccessPlan)

theorem NodeAccessPlan.sizeOf_pos (plan : NodeAccessPlan) : 0 < sizeOf plan := by
  cases plan <;> simp +arith

/-! ## §2. What a plan reads. -/

/-- A stored graph: nodes with a label and properties. -/
structure StoredGraph where
  nodes : List Nat
  label : Nat → String
  property : Nat → String → Option Property.PropertyValue

/-- What the run supplies: parameters, and the nodes its sources name. -/
structure Environment where
  params : String → Property.PropertyValue
  equals : Nat → Property.PropertyValue → Bool
  search : Nat → Nat → Bool
  source : Nat → Nat → Bool

variable {plans : List NodeAccessPlan}

section Reads

variable (graph : StoredGraph) (env : Environment)

/-- The stored values a lookup finds. -/
def IndexValue.admits : IndexValue → Property.PropertyValue → Bool
  | .literal value, x => x.eqValue value.value.astToDbValue
  | .runtime param, x => env.equals param x
  | .literalSet values, x => values.any fun value => x.eqValue value.value.astToDbValue

mutual

/-- Membership of a node in the set a plan reads. -/
def NodeAccessPlan.reads (id : Nat) : NodeAccessPlan → Prop
  | .empty => False
  | .pointIds ids => id ∈ ids
  | .allScan => id ∈ graph.nodes
  | .labelScan label => id ∈ graph.nodes ∧ graph.label id = label
  | .equalityIndex _ key value =>
    id ∈ graph.nodes ∧ graph.label id = key.label ∧
      value.admits env ((graph.property id key.property).getD .null) = true
  | .rangeIndex _ key range _ =>
    id ∈ graph.nodes ∧ graph.label id = key.label ∧
      ∃ x, graph.property id key.property = some x ∧ range.selects env.params x = true
  | .search label query => id ∈ graph.nodes ∧ graph.label id = label ∧ env.search query id = true
  | .source name => env.source name id = true
  | .intersect plans => readsAll id plans
  | .union plans => readsAny id plans

/-- Every plan reads the node. -/
def NodeAccessPlan.readsAll (id : Nat) : List NodeAccessPlan → Prop
  | [] => True
  | plan :: plans => plan.reads id ∧ readsAll id plans

/-- Some plan reads the node. -/
def NodeAccessPlan.readsAny (id : Nat) : List NodeAccessPlan → Prop
  | [] => False
  | plan :: plans => plan.reads id ∨ readsAny id plans

end

variable {graph env}

theorem NodeAccessPlan.readsAll_iff {id : Nat} :
    readsAll graph env id plans ↔ ∀ plan ∈ plans, plan.reads graph env id := by
  induction plans with
  | nil => simp [readsAll]
  | cons plan plans ih => rw [readsAll, ih, List.forall_mem_cons]

theorem NodeAccessPlan.readsAny_iff {id : Nat} :
    readsAny graph env id plans ↔ ∃ plan ∈ plans, plan.reads graph env id := by
  induction plans with
  | nil => simp [readsAny]
  | cons plan plans ih => rw [readsAny, ih, List.exists_mem_cons_iff]

theorem NodeAccessPlan.reads_intersect {id : Nat} :
    (intersect plans).reads graph env id ↔ ∀ plan ∈ plans, plan.reads graph env id := by
  rw [reads, readsAll_iff]

theorem NodeAccessPlan.reads_union {id : Nat} :
    (union plans).reads graph env id ↔ ∃ plan ∈ plans, plan.reads graph env id := by
  rw [reads, readsAny_iff]

end Reads

end HelixDb.Planner
