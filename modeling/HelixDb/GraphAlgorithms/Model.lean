/-
  HelixDb.GraphAlgorithms.Model

  **LOADED GRAPHS** and the arcs at a node.

  A graph keeps its nodes and edges in the order of their identities.  The arcs
  of a node are read from two sorted rows: as they are, or merged, where a
  self-loop is read from its outgoing row only.  Identities are any linear
  orders.  Weights and attributes ride along with an edge unread and are left
  out.

    • `Graph.mem_arcs` — the arcs at a node are the incident edges the direction
      allows;
    • `Graph.arcs_edges_nodup`, `Graph.arcs_sorted` — each once, in order.
-/
import HelixDb.Lib.StableSort

namespace HelixDb.GraphAlgorithms

open List

variable {Id EdgeId : Type} [LinearOrder Id] [LinearOrder EdgeId]

/-! ## §1. Graphs. -/

/-- The four kinds of graph. -/
inductive GraphKind where
  | graph | diGraph | multiGraph | multiDiGraph
deriving DecidableEq

/-- Whether edges have a direction. -/
def GraphKind.isDirected : GraphKind → Bool
  | .diGraph | .multiDiGraph => true
  | .graph | .multiGraph => false

/-- Whether parallel edges are allowed. -/
def GraphKind.isMultigraph : GraphKind → Bool
  | .multiGraph | .multiDiGraph => true
  | .graph | .diGraph => false

/-- What the algorithms read of an edge. -/
structure Edge (Id EdgeId : Type) where
  id : EdgeId
  graphifyKey : Option Id
  source : Id
  target : Id
  label : Option String

/-- The endpoint pair that a simple graph may hold once. -/
def Edge.pair (kind : GraphKind) (edge : Edge Id EdgeId) : Id × Id :=
  if kind.isDirected ∨ edge.source ≤ edge.target then (edge.source, edge.target)
  else (edge.target, edge.source)

/-- What `Graph::new` returns: records in the order of their identities, known
endpoints, and no parallel edges in a simple graph. -/
structure Graph (Id EdgeId : Type) [LinearOrder Id] [LinearOrder EdgeId] where
  kind : GraphKind
  nodes : List Id
  edges : List (Edge Id EdgeId)
  nodes_sorted : nodes.Pairwise (· < ·)
  edges_sorted : (edges.map Edge.id).Pairwise (· < ·)
  endpoints : ∀ edge ∈ edges, edge.source ∈ nodes ∧ edge.target ∈ nodes
  simple : kind.isMultigraph = false → (edges.map (Edge.pair kind)).Nodup

/-- The edges a traversal follows. -/
inductive TraversalDirection where
  | out | into | both
deriving DecidableEq

namespace Graph

variable (graph : Graph Id EdgeId)

/-- Positions in the sorted nodes. -/
abbrev NodeIndex := Fin graph.nodes.length

/-- Positions in the sorted edges. -/
abbrev EdgeIndex := Fin graph.edges.length

/-- Whether the graph's edges have a direction. -/
def isDirected : Bool := graph.kind.isDirected

/-- The number of nodes. -/
def nodeCount : Nat := graph.nodes.length

/-- The identity of a node. -/
def nodeId (node : graph.NodeIndex) : Id := graph.nodes.get node

/-- The edge at an index. -/
def edgeAt (edge : graph.EdgeIndex) : Edge Id EdgeId := graph.edges.get edge

/-- `node_indexes`, as a lookup that can fail. -/
def nodeIndex (id : Id) : Option graph.NodeIndex :=
  if h : id ∈ graph.nodes then some ⟨graph.nodes.idxOf id, List.idxOf_lt_length_of_mem h⟩ else none

/-- The node an edge starts from. -/
def source (edge : graph.EdgeIndex) : graph.NodeIndex :=
  ⟨graph.nodes.idxOf (graph.edgeAt edge).source,
    List.idxOf_lt_length_of_mem (graph.endpoints _ (List.get_mem ..)).1⟩

/-- The node an edge ends at. -/
def target (edge : graph.EdgeIndex) : graph.NodeIndex :=
  ⟨graph.nodes.idxOf (graph.edgeAt edge).target,
    List.idxOf_lt_length_of_mem (graph.endpoints _ (List.get_mem ..)).2⟩

theorem nodeId_injective : Function.Injective graph.nodeId := by
  intro a b h
  have hnodup : graph.nodes.Nodup := graph.nodes_sorted.imp ne_of_lt
  exact Fin.ext (hnodup.get_inj_iff.mp h ▸ rfl)

theorem nodeIndex_nodeId (node : graph.NodeIndex) :
    graph.nodeIndex (graph.nodeId node) = some node := by
  have hmem : graph.nodeId node ∈ graph.nodes := get_mem _ _
  unfold nodeIndex
  rw [dif_pos hmem]
  congr 1
  apply graph.nodeId_injective
  exact getElem_idxOf (idxOf_lt_length_of_mem hmem)

/-! ## §2. Rows. -/

/-- An entry of an adjacency row: an edge and its other end. -/
structure ArcRef where
  neighbor : graph.NodeIndex
  edge : graph.EdgeIndex

variable {graph} in
/-- `None` sorts before every key. -/
def compareKeys : Option Id → Option Id → Ordering
  | none, none => .eq
  | none, some _ => .lt
  | some _, none => .gt
  | some a, some b => compare a b

/-- The order of a row: by neighbor, key and edge identity. -/
def compareArcs (left right : graph.ArcRef) : Ordering :=
  (compare (graph.nodeId left.neighbor) (graph.nodeId right.neighbor)).then
    ((compareKeys (graph.edgeAt left.edge).graphifyKey (graph.edgeAt right.edge).graphifyKey).then
      (compare (graph.edgeAt left.edge).id (graph.edgeAt right.edge).id))

/-- A row in its order. -/
def sortRow (row : List graph.ArcRef) : List graph.ArcRef :=
  row.mergeSort fun left right => (graph.compareArcs left right).isLE

/-- The edges that start at a node. -/
def outgoing (node : graph.NodeIndex) : List graph.ArcRef :=
  graph.sortRow (((List.finRange graph.edges.length).filter fun edge =>
    graph.source edge = node).map fun edge => ⟨graph.target edge, edge⟩)

/-- The edges that end at a node. -/
def incoming (node : graph.NodeIndex) : List graph.ArcRef :=
  graph.sortRow (((List.finRange graph.edges.length).filter fun edge =>
    graph.target edge = node).map fun edge => ⟨graph.source edge, edge⟩)

/-! ## §3. Arcs. -/

/-- `ArcIter::next` over both rows: the arc read, and what is left of the rows. -/
def nextBoth (node : graph.NodeIndex) (outgoing incoming : List graph.ArcRef) :
    Option (graph.ArcRef × List graph.ArcRef × List graph.ArcRef) :=
  match outgoing, incoming.dropWhile fun arc => arc.neighbor = node with
  | left :: outgoing, right :: incoming =>
    if graph.compareArcs left right ≠ .gt then some (left, outgoing, right :: incoming)
    else some (right, left :: outgoing, incoming)
  | left :: outgoing, [] => some (left, outgoing, [])
  | [], right :: incoming => some (right, [], incoming)
  | [], [] => none

/-- The arcs `next` reads; every call shortens the rows. -/
def bothArcs (node : graph.NodeIndex) : Nat → List graph.ArcRef → List graph.ArcRef →
    List graph.ArcRef
  | 0, _, _ => []
  | fuel + 1, outgoing, incoming =>
    match graph.nextBoth node outgoing incoming with
    | none => []
    | some (arc, outgoing, incoming) => arc :: bothArcs node fuel outgoing incoming

/-- The direction a graph observes. -/
def observed (direction : TraversalDirection) : TraversalDirection :=
  if graph.isDirected then direction else .both

/-- The row a traversal in `direction` reads; for `both` the two rows are merged. -/
def arcs (node : graph.NodeIndex) (direction : TraversalDirection) : List graph.ArcRef :=
  match graph.observed direction with
  | .out => graph.outgoing node
  | .into => graph.incoming node
  | .both => graph.bothArcs node ((graph.outgoing node).length + (graph.incoming node).length)
      (graph.outgoing node) (graph.incoming node)

/-! ## §4. What the arcs are. -/

/-- An edge leads from `u` to `v` in the given direction. -/
def Leads (direction : TraversalDirection) (u : graph.NodeIndex) (edge : graph.EdgeIndex)
    (v : graph.NodeIndex) : Prop :=
  match graph.observed direction with
  | .out => graph.source edge = u ∧ graph.target edge = v
  | .into => graph.target edge = u ∧ graph.source edge = v
  | .both => graph.source edge = u ∧ graph.target edge = v ∨
      graph.target edge = u ∧ graph.source edge = v

variable {graph} {node : graph.NodeIndex}

/-- The arcs of a row, by the ends of their edges at `node` and away from it. -/
theorem mem_sortRow (here there : graph.EdgeIndex → graph.NodeIndex) {arc : graph.ArcRef} :
    arc ∈ graph.sortRow (((finRange _).filter fun edge => here edge = node).map fun edge =>
      ⟨there edge, edge⟩) ↔ here arc.edge = node ∧ there arc.edge = arc.neighbor := by
  rw [sortRow, mem_mergeSort, mem_map]
  constructor
  · rintro ⟨edge, hedge, rfl⟩
    exact ⟨by simpa using hedge, rfl⟩
  · rintro ⟨hhere, hthere⟩
    refine ⟨arc.edge, by simpa using hhere, ?_⟩
    rw [hthere]

theorem mem_outgoing {arc : graph.ArcRef} : arc ∈ graph.outgoing node ↔
    graph.source arc.edge = node ∧ graph.target arc.edge = arc.neighbor := mem_sortRow _ _

theorem mem_incoming {arc : graph.ArcRef} : arc ∈ graph.incoming node ↔
    graph.target arc.edge = node ∧ graph.source arc.edge = arc.neighbor := mem_sortRow _ _

/-- Incoming arcs but self-loops. -/
def properArcs (node : graph.NodeIndex) (row : List graph.ArcRef) : List graph.ArcRef :=
  row.filter fun arc => !decide (arc.neighbor = node)

theorem properArcs_dropWhile (node : graph.NodeIndex) (row : List graph.ArcRef) :
    properArcs node (row.dropWhile fun arc => arc.neighbor = node) = properArcs node row := by
  induction row with
  | nil => rfl
  | cons arc row ih =>
    rw [dropWhile_cons]
    split_ifs with hself
    · rw [ih, properArcs, properArcs, filter_cons_of_neg (by simpa using hself)]
    · rfl

/-- The merged rows: every outgoing arc and every incoming one but self-loops. -/
theorem bothArcs_eq_merge (node : graph.NodeIndex) (fuel : Nat) :
    ∀ {outgoing incoming : List graph.ArcRef}, outgoing.length + incoming.length ≤ fuel →
      graph.bothArcs node fuel outgoing incoming = merge outgoing (properArcs node incoming)
        fun left right => (graph.compareArcs left right).isLE := by
  induction fuel with
  | zero =>
    intro outgoing incoming hfuel
    rw [eq_nil_of_length_eq_zero (by omega : outgoing.length = 0),
      eq_nil_of_length_eq_zero (by omega : incoming.length = 0)]
    exact (nil_merge _).symm
  | succ fuel ih =>
    intro outgoing incoming hfuel
    have hlength := length_dropWhile_le (fun arc : graph.ArcRef => arc.neighbor = node) incoming
    rw [← properArcs_dropWhile]
    unfold bothArcs nextBoth
    cases hdrop : incoming.dropWhile fun arc => decide (arc.neighbor = node) with
    | nil =>
      cases outgoing with
      | nil => exact (nil_merge _).symm
      | cons left outgoing =>
        rw [length_cons] at hfuel
        show left :: graph.bothArcs node fuel outgoing [] = _
        rw [ih (by simp only [length_nil]; omega)]
        simp [properArcs]
    | cons right rest =>
      -- the arc the loop stops at is no self-loop
      have hproper : properArcs node (right :: rest) = right :: properArcs node rest := by
        have hne : incoming.dropWhile (fun arc => decide (arc.neighbor = node)) ≠ [] := by
          rw [hdrop]
          exact cons_ne_nil _ _
        have hright := head_dropWhile_not (fun arc : graph.ArcRef => decide (arc.neighbor = node)) hne
        simp only [hdrop, head_cons] at hright
        exact filter_cons_of_pos (by simpa using hright)
      rw [hdrop, length_cons] at hlength
      rw [hproper]
      cases outgoing with
      | nil =>
        show right :: graph.bothArcs node fuel [] rest = _
        rw [ih (by rw [length_nil] at hfuel ⊢; omega), nil_merge, nil_merge]
      | cons left outgoing =>
        rw [length_cons] at hfuel
        rw [cons_merge_cons]
        simp only [Ordering.isLE_iff_ne_gt]
        split_ifs
        · show left :: graph.bothArcs node fuel outgoing (right :: rest) = _
          rw [ih (by rw [length_cons]; omega), hproper]
        · show right :: graph.bothArcs node fuel (left :: outgoing) rest = _
          rw [ih (by rw [length_cons]; omega)]

/-- **The arcs at a node** are the incident edges the direction allows. -/
theorem mem_arcs {direction : TraversalDirection} {arc : graph.ArcRef} :
    arc ∈ graph.arcs node direction ↔ graph.Leads direction node arc.edge arc.neighbor := by
  unfold arcs Leads
  cases graph.observed direction with
  | out => exact mem_outgoing
  | into => exact mem_incoming
  | both =>
    show arc ∈ graph.bothArcs _ _ _ _ ↔ _
    rw [bothArcs_eq_merge node _ le_rfl, mem_merge, properArcs, mem_filter, mem_outgoing,
      mem_incoming]
    constructor
    · rintro (h | h)
      · exact .inl h
      · exact .inr h.1
    · rintro (h | h)
      · exact .inl h
      · by_cases hself : arc.neighbor = node
        · exact .inl ⟨by rw [h.2, hself], by rw [h.1, hself]⟩
        · exact .inr ⟨h, by simpa using hself⟩

/-! ## §5. The order of the arcs. -/

theorem compareKeys_eq (a b : Option Id) : compareKeys a b = compare a b := by
  cases a <;> cases b <;> rfl

theorem compareArcs_eq : graph.compareArcs = compareLex (compareOn fun arc => graph.nodeId arc.neighbor)
    (compareLex (compareOn fun arc => (graph.edgeAt arc.edge).graphifyKey)
      (compareOn fun arc => (graph.edgeAt arc.edge).id)) := by
  rfl

instance : Std.TransCmp graph.compareArcs := by
  rw [compareArcs_eq]
  infer_instance

theorem arcs_sorted (node : graph.NodeIndex) (direction : TraversalDirection) :
    (graph.arcs node direction).Pairwise fun left right => (graph.compareArcs left right).isLE := by
  have hrow : ∀ row, (graph.sortRow row).Pairwise fun left right =>
      (graph.compareArcs left right).isLE := Lib.sorted_stableSort graph.compareArcs
  unfold arcs
  cases graph.observed direction with
  | out => exact hrow _
  | into => exact hrow _
  | both =>
    show (graph.bothArcs ..).Pairwise _
    rw [bothArcs_eq_merge node _ le_rfl]
    exact pairwise_merge (fun _ _ _ => Std.TransCmp.isLE_trans) (Lib.isLE_total _) _ _ (hrow _)
      ((hrow _).filter _)

/-- An edge is read once, a self-loop from its outgoing row. -/
theorem arcs_edges_nodup (node : graph.NodeIndex) (direction : TraversalDirection) :
    ((graph.arcs node direction).map ArcRef.edge).Nodup := by
  have hrow : ∀ (p : graph.EdgeIndex → Bool) (f : graph.EdgeIndex → graph.NodeIndex),
      ((graph.sortRow (((finRange _).filter p).map fun edge => ⟨f edge, edge⟩)).map
        ArcRef.edge).Nodup := by
    intro p f
    rw [sortRow, ((mergeSort_perm _ _).map _).nodup_iff]
    simpa [Function.comp_def] using (nodup_finRange _).filter p
  unfold arcs
  cases graph.observed direction with
  | out => exact hrow _ _
  | into => exact hrow _ _
  | both =>
    show ((graph.bothArcs ..).map _).Nodup
    rw [bothArcs_eq_merge node _ le_rfl, ((merge_perm_append _).map _).nodup_iff, map_append]
    refine nodup_append.mpr ⟨hrow _ _, (hrow _ _).sublist ((filter_sublist ..).map _), ?_⟩
    intro edge hout edge' hin heq
    obtain ⟨left, hleft, rfl⟩ := mem_map.mp hout
    obtain ⟨right, hright, rfl⟩ := mem_map.mp hin
    rw [properArcs, mem_filter, mem_incoming] at hright
    have hloop : right.neighbor = node := by
      rw [← hright.1.2, ← heq]
      exact (mem_outgoing.mp hleft).1
    simp [hloop] at hright

end Graph

end HelixDb.GraphAlgorithms
