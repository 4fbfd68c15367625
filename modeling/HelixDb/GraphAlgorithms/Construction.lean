/-
  HelixDb.GraphAlgorithms.Construction

  **GRAPH CONSTRUCTION.**

  Nodes and edges come in any order.  Both are collected by identity, each record
  is checked as it comes, and a simple graph is then checked for parallel edges.
  Which record is blamed depends on the order; whether one is, and the graph that
  is built, do not.

  The checks of an identity are parameters, and so is the type of attributes.  A
  weight is the bits of an `f64`.  The indexes and rows a graph keeps are read off
  its records.

    • `construction_ignores_order` — one graph for all orders of the records, and
      the arcs at its nodes.
-/
import HelixDb.GraphAlgorithms.Model
import HelixDb.Lib.SortedSearch

namespace HelixDb.GraphAlgorithms

open HelixDb.Lib List

variable {Id EdgeId Attributes : Type} [LinearOrder Id]

/-! ## §1. Records and errors. -/

/-- A node record. -/
structure Node (Id Attributes : Type) where
  id : Id
  label : Option String
  attributes : Attributes

/-- An edge record, with what the algorithms do not read. -/
structure EdgeRecord (Id EdgeId Attributes : Type) extends Edge Id EdgeId where
  weight : Option UInt64
  attributes : Attributes

/-- The `GraphError`s a construction returns. -/
inductive ConstructionError (Id EdgeId : Type) where
  | emptyEdgeId
  | duplicateNode (id : Id)
  | duplicateEdge (id : EdgeId)
  | missingEndpoint (edgeId : EdgeId) (endpoint : String) (nodeId : Id)
  | invalidWeight (edgeId : EdgeId) (weight : UInt64)
  | invalidExternalId (message : String)
  | parallelEdge (kind : GraphKind) (pairSource pairTarget : Id)

/-- Infinite, no number, or below zero; `-0.0` is not below zero. -/
def invalidWeight (weight : UInt64) : Prop :=
  weight.toNat / 2 ^ 52 % 2 ^ 11 = 2 ^ 11 - 1 ∨ 2 ^ 63 < weight.toNat

instance (weight : UInt64) : Decidable (invalidWeight weight) := inferInstanceAs (Decidable (_ ∨ _))

/-- What `with_attributes` builds: the records in the order of their identities. -/
structure GraphInner (Id EdgeId Attributes : Type) where
  kind : GraphKind
  graphAttributes : Attributes
  nodes : List (Node Id Attributes)
  edges : List (EdgeRecord Id EdgeId Attributes)

/-! ## §2. Construction. -/

variable (validate : Id → Except String Unit) (isValid : EdgeId → Bool)

/-- The check of one node. -/
def checkNode (node : Node Id Attributes) : Except (ConstructionError Id EdgeId) Unit :=
  (validate node.id).mapError .invalidExternalId

/-- The checks of one edge, in the order they are made. -/
def checkEdge (nodes : List (Node Id Attributes)) (edge : EdgeRecord Id EdgeId Attributes) :
    Except (ConstructionError Id EdgeId) Unit := do
  if ¬ isValid edge.id then throw .emptyEdgeId
  if ¬ ∃ node ∈ nodes, node.id = edge.source then throw (.missingEndpoint edge.id "source" edge.source)
  if ¬ ∃ node ∈ nodes, node.id = edge.target then throw (.missingEndpoint edge.id "target" edge.target)
  match edge.weight with
  | some weight => if invalidWeight weight then throw (.invalidWeight edge.id weight)
  | none => pure ()

variable {isValid} in
theorem checkEdge_endpoints {nodes : List (Node Id Attributes)}
    {edge : EdgeRecord Id EdgeId Attributes} (h : checkEdge isValid nodes edge = .ok ()) :
    edge.source ∈ nodes.map Node.id ∧ edge.target ∈ nodes.map Node.id := by
  unfold checkEdge at h
  split_ifs at h
  all_goals first
    | cases h
    | exact ⟨mem_map.mpr ‹_›, mem_map.mpr ‹_›⟩

/-- The endpoint pairs of a simple graph, each taken once. -/
def checkPairs (kind : GraphKind) (edges : List (EdgeRecord Id EdgeId Attributes)) :
    Except (ConstructionError Id EdgeId) Unit :=
  if kind.isMultigraph then .ok ()
  else do
    let _ ← collectByKey (fun edge : EdgeRecord Id EdgeId Attributes => toLex (edge.pair kind))
      (fun _ => .ok ()) (fun pair => .parallelEdge kind (ofLex pair).1 (ofLex pair).2) edges

theorem checkPairs_nodup {kind : GraphKind} {edges : List (EdgeRecord Id EdgeId Attributes)}
    (h : checkPairs kind edges = .ok ()) (hsimple : kind.isMultigraph = false) :
    (edges.map fun edge => edge.pair kind).Nodup := by
  rw [checkPairs, hsimple] at h
  obtain ⟨pairs, hpairs, _⟩ := except_bind_ok h
  obtain ⟨_, hperm, hpairs⟩ := collectByKey_eq_ok.mp hpairs
  exact (hperm.map _).nodup_iff.mp hpairs.nodup_map

variable [LinearOrder EdgeId]

/-- `Graph::with_attributes`. -/
def withAttributes (kind : GraphKind) (graphAttributes : Attributes)
    (nodes : List (Node Id Attributes)) (edges : List (EdgeRecord Id EdgeId Attributes)) :
    Except (ConstructionError Id EdgeId) (GraphInner Id EdgeId Attributes) := do
  let nodes ← collectByKey Node.id (checkNode validate) .duplicateNode nodes
  let edges ← collectByKey (fun edge => edge.id) (checkEdge isValid nodes) .duplicateEdge edges
  checkPairs kind edges
  return { kind, graphAttributes, nodes, edges }

variable {validate isValid}

variable {kind : GraphKind} {graphAttributes : Attributes} {nodes : List (Node Id Attributes)}
variable {edges : List (EdgeRecord Id EdgeId Attributes)} {inner : GraphInner Id EdgeId Attributes}

theorem withAttributes_ok
    (h : withAttributes validate isValid kind graphAttributes nodes edges = .ok inner) :
    AscendingBy Node.id inner.nodes ∧ AscendingBy (fun edge => edge.id) inner.edges ∧
      (∀ edge ∈ inner.edges,
        edge.source ∈ inner.nodes.map Node.id ∧ edge.target ∈ inner.nodes.map Node.id) ∧
      (inner.kind.isMultigraph = false → (inner.edges.map fun edge => edge.pair inner.kind).Nodup) := by
  obtain ⟨nodes, hnodes, h⟩ := except_bind_ok h
  obtain ⟨edges, hedges, h⟩ := except_bind_ok h
  obtain ⟨_, hpairs, h⟩ := except_bind_ok h
  cases h
  obtain ⟨hcheck, hperm, hedges⟩ := collectByKey_eq_ok.mp hedges
  exact ⟨(collectByKey_eq_ok.mp hnodes).2.2, hedges, fun edge hedge =>
    checkEdge_endpoints (hcheck edge (hperm.mem_iff.mp hedge)), checkPairs_nodup hpairs⟩

/-- The graph the algorithms see of what was constructed. -/
def GraphInner.graph (inner : GraphInner Id EdgeId Attributes)
    (h : withAttributes validate isValid kind graphAttributes nodes edges = .ok inner) :
    Graph Id EdgeId where
  kind := inner.kind
  nodes := inner.nodes.map Node.id
  edges := inner.edges.map EdgeRecord.toEdge
  nodes_sorted := pairwise_map.mpr (withAttributes_ok h).1
  edges_sorted := by
    rw [map_map]
    exact pairwise_map.mpr (withAttributes_ok h).2.1
  endpoints := forall_mem_map.mpr (withAttributes_ok h).2.2.1
  simple := by
    rw [map_map]
    exact (withAttributes_ok h).2.2.2

/-! ## §3. Any order of the records. -/

/-- **Construction does not see the order of its records**, and neither do the arcs
at a node: these are the edges the direction allows, each of them once, by neighbor,
key and identity. -/
theorem construction_ignores_order (validate : Id → Except String Unit) (isValid : EdgeId → Bool) :
    (∀ (kind : GraphKind) (graphAttributes : Attributes) {nodes nodes' : List (Node Id Attributes)}
        {edges edges' : List (EdgeRecord Id EdgeId Attributes)}, nodes.Perm nodes' → edges.Perm edges' →
      ∀ inner, withAttributes validate isValid kind graphAttributes nodes edges = .ok inner ↔
        withAttributes validate isValid kind graphAttributes nodes' edges' = .ok inner) ∧
    ∀ {kind : GraphKind} {graphAttributes : Attributes} {nodes edges}
        {inner : GraphInner Id EdgeId Attributes}
        (h : withAttributes validate isValid kind graphAttributes nodes edges = .ok inner)
        (node : (inner.graph h).NodeIndex) (direction : TraversalDirection),
      (∀ arc, arc ∈ (inner.graph h).arcs node direction ↔
        (inner.graph h).Leads direction node arc.edge arc.neighbor) ∧
      (((inner.graph h).arcs node direction).map Graph.ArcRef.edge).Nodup ∧
      ((inner.graph h).arcs node direction).Pairwise fun left right =>
        ((inner.graph h).compareArcs left right).isLE := by
  refine ⟨?_, fun h node direction =>
    ⟨fun _ => Graph.mem_arcs, Graph.arcs_edges_nodup node direction, Graph.arcs_sorted node direction⟩⟩
  intro kind graphAttributes nodes nodes' edges edges' hnodes hedges inner
  simp only [withAttributes, except_bind_eq_ok, collectByKey_eq_ok, hnodes.mem_iff, hedges.mem_iff,
    hnodes.congr_right, hedges.congr_right]

/-- A node with nothing but its identity. -/
def bareNode (id : Nat) : Node Nat Unit := ⟨id, none, ()⟩

/-- The edge 0 from the node 1 to the node 2. -/
def bareEdge : EdgeRecord Nat Nat Unit := ⟨⟨0, none, 1, 2, none⟩, none, ()⟩

/-- Two nodes given in the other order make the same graph, whose arcs are what its one edge
allows. -/
theorem construction_of_two_nodes :
    let construct nodes := withAttributes (fun _ => .ok ()) (fun _ => true) .diGraph () nodes [bareEdge]
    let inner : GraphInner Nat Nat Unit :=
      ⟨.diGraph, (), [bareNode 1, bareNode 2], [bareEdge]⟩
    construct [bareNode 1, bareNode 2] = .ok inner ∧
      ∃ h : construct [bareNode 2, bareNode 1] = .ok inner, ∀ node direction arc,
        arc ∈ (inner.graph h).arcs node direction ↔
          (inner.graph h).Leads direction node arc.edge arc.neighbor := by
  intro construct inner
  have h := @construction_ignores_order Nat Nat Unit _ _ (fun _ => .ok ()) (fun _ => true)
  have hconstruct : construct [bareNode 2, bareNode 1] = .ok inner := by rfl
  exact ⟨(h.1 _ _ (.swap _ _ _) (.refl _) _).mp hconstruct, hconstruct,
    fun node direction => (h.2 hconstruct node direction).1⟩

end HelixDb.GraphAlgorithms
