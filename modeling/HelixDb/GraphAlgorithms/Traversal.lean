/-
  HelixDb.GraphAlgorithms.Traversal

  **TRAVERSALS** of a loaded graph from a list of seeds.

  Both strategies mark a node when they discover it and expand it when they take
  it, unless it is too deep or a suppressed hub that is no seed.  Breadth-first
  records a visit at discovery, depth-first when a node is taken off the stack.

    • `Graph.breadthLoop_levels` — the queue loop makes the moves of a
      breadth-first search;
    • `Graph.depthLoop_marks` — the stack loop those of a depth-first search;
    • `Graph.traverse_visits` — what the two strategies visit.
-/
import HelixDb.GraphAlgorithms.Model
import HelixDb.Lib.GraphSearch
import HelixDb.Lib.FoldM

namespace HelixDb.GraphAlgorithms

open HelixDb.Lib List
open Prod (fst)

variable {Id EdgeId : Type} [LinearOrder Id] [LinearOrder EdgeId]

/-! ## §1. Options and results. -/

/-- The order nodes are taken in. -/
inductive TraversalStrategy where
  | breadthFirst | depthFirst
deriving DecidableEq

/-- Whether a traversal stops at nodes of a high degree. -/
inductive HubExpansionPolicy where
  | expandAll
  | stopNonSeedAtOrAbove (degree : Nat)

/-- The options of a traversal. -/
structure TraversalOptions (Id : Type) where
  strategy : TraversalStrategy
  seeds : List Id
  maxDepth : Nat
  direction : TraversalDirection
  allowedLabels : List String
  hubPolicy : HubExpansionPolicy

/-- A visited node and when it was found. -/
structure Visit (Id : Type) where
  nodeId : Id
  depth : Nat
  discoveryOrder : Nat

/-- Along the edge or against it. -/
inductive EdgeTraversalDirection where
  | forward | reverse
deriving DecidableEq

/-- An edge that discovered a node. -/
structure TraversedEdge (Id EdgeId : Type) where
  edgeId : EdgeId
  graphifyKey : Option Id
  source : Id
  target : Id
  traversalDirection : EdgeTraversalDirection
  label : Option String

/-- The visits and the discovery edges, in order. -/
structure TraversalResult (Id EdgeId : Type) where
  visits : List (Visit Id)
  discoveryEdges : List (TraversedEdge Id EdgeId)

/-- The `GraphError`s a traversal returns. -/
inductive GraphError (Id : Type) where
  | unknownNode (id : Id)
  | invalidOption (message : String)

/-- No listed label allows every edge. -/
def edgeLabelAllowed (edge : Edge Id EdgeId) (allowed : List String) : Bool :=
  allowed.isEmpty || edge.label.any fun label => allowed.contains label

variable {depth fuel : Nat}

namespace Graph

variable (graph : Graph Id EdgeId)

/-- An edge that starts at the current node is walked forward. -/
def edgeDirection (current : graph.NodeIndex) (edge : Edge Id EdgeId) : EdgeTraversalDirection :=
  if graph.nodeId current = edge.source then .forward else .reverse

/-- The discovery edge walked from `current`. -/
def traversedEdge (current : graph.NodeIndex) (edge : Edge Id EdgeId) : TraversedEdge Id EdgeId where
  edgeId := edge.id
  graphifyKey := edge.graphifyKey
  source := edge.source
  target := edge.target
  traversalDirection := graph.edgeDirection current edge
  label := edge.label

/-- `unweighted_degree_at` of the total degree; a self-loop contributes two. -/
def totalDegree (node : graph.NodeIndex) : Nat :=
  (graph.outgoing node).length + (graph.incoming node).length

/-- Whether the policy stops at the node. -/
def suppressesHub (node : graph.NodeIndex) (policy : HubExpansionPolicy) : Bool :=
  match policy with
  | .expandAll => false
  | .stopNonSeedAtOrAbove degree => decide (degree ≤ graph.totalDegree node)

/-! ## §2. Breadth-first. -/

/-- The variables of `breadth_first`. -/
structure BreadthState where
  visited : graph.NodeIndex → Bool
  queue : List (graph.NodeIndex × Nat)
  visits : List (Visit Id)
  discoveryEdges : List (TraversedEdge Id EdgeId)

variable (options : TraversalOptions Id) (seeds : List graph.NodeIndex)

/-- A node that is taken and not expanded. -/
def stopsAt (node : graph.NodeIndex) (depth : Nat) : Bool :=
  decide (options.maxDepth ≤ depth) ||
    (!seeds.contains node && graph.suppressesHub node options.hubPolicy)

/-- A seed is visited at depth 0 and waits. -/
def breadthSeed (state : graph.BreadthState) (seed : graph.NodeIndex) : graph.BreadthState where
  visited := Function.update state.visited seed true
  queue := state.queue ++ [(seed, 0)]
  visits := state.visits ++ [⟨graph.nodeId seed, 0, state.visits.length⟩]
  discoveryEdges := state.discoveryEdges

/-- An allowed arc to a node not yet visited discovers it. -/
def breadthArc (node : graph.NodeIndex) (depth : Nat) (state : graph.BreadthState)
    (arc : graph.ArcRef) : graph.BreadthState :=
  if !edgeLabelAllowed (graph.edgeAt arc.edge) options.allowedLabels || state.visited arc.neighbor
  then state
  else {
    visited := Function.update state.visited arc.neighbor true
    queue := state.queue ++ [(arc.neighbor, depth + 1)]
    visits := state.visits ++ [⟨graph.nodeId arc.neighbor, depth + 1, state.visits.length⟩]
    discoveryEdges := state.discoveryEdges ++ [graph.traversedEdge node (graph.edgeAt arc.edge)] }

/-- The loop over the queue; `none` when the fuel does not suffice. -/
def breadthLoop : Nat → graph.BreadthState → Option graph.BreadthState
  | fuel, state =>
    match state.queue, fuel with
    | [], _ => some state
    | _ :: _, 0 => none
    | (node, depth) :: queue, fuel + 1 =>
      if graph.stopsAt options seeds node depth then breadthLoop fuel { state with queue }
      else breadthLoop fuel ((graph.arcs node options.direction).foldl
        (graph.breadthArc options node depth) { state with queue })

/-- Nothing is visited yet. -/
def breadthStart : graph.BreadthState where
  visited := fun _ => false
  queue := []
  visits := []
  discoveryEdges := []

/-- `breadth_first`; `none` when the fuel runs out. -/
def breadthFirst (fuel : Nat) : Option (TraversalResult Id EdgeId) :=
  (graph.breadthLoop options seeds fuel (seeds.foldl graph.breadthSeed graph.breadthStart)).map
    fun state => { visits := state.visits, discoveryEdges := state.discoveryEdges }

/-! ## §3. Depth-first. -/

/-- The variables of `depth_first`. -/
structure DepthState where
  visited : graph.NodeIndex → Bool
  /-- The top of the stack first. -/
  stack : List (graph.NodeIndex × Nat × Option (graph.NodeIndex × graph.EdgeIndex))
  visits : List (Visit Id)
  discoveryEdges : List (TraversedEdge Id EdgeId)

/-- A seed goes on the stack once. -/
def depthSeed (state : graph.DepthState) (seed : graph.NodeIndex) : graph.DepthState :=
  if state.visited seed then state
  else { state with
    visited := Function.update state.visited seed true
    stack := (seed, 0, none) :: state.stack }

/-- The arcs to nodes neither visited nor discovered by an arc before. -/
def discoverArcs (visited : graph.NodeIndex → Bool) :
    List graph.NodeIndex → List graph.ArcRef → List graph.ArcRef
  | _, [] => []
  | discovered, arc :: arcs =>
    if !visited arc.neighbor && edgeLabelAllowed (graph.edgeAt arc.edge) options.allowedLabels
        && !discovered.contains arc.neighbor then
      arc :: discoverArcs visited (arc.neighbor :: discovered) arcs
    else discoverArcs visited discovered arcs

/-- A discovered node is marked and goes on the stack. -/
def depthPush (node : graph.NodeIndex) (depth : Nat) (state : graph.DepthState)
    (arc : graph.ArcRef) : graph.DepthState :=
  { state with
    visited := Function.update state.visited arc.neighbor true
    stack := (arc.neighbor, depth + 1, some (node, arc.edge)) :: state.stack }

/-- A node taken off the stack is a visit. -/
def depthVisit (state : graph.DepthState) (node : graph.NodeIndex) (depth : Nat)
    (discovery : Option (graph.NodeIndex × graph.EdgeIndex))
    (stack : List (graph.NodeIndex × Nat × Option (graph.NodeIndex × graph.EdgeIndex))) :
    graph.DepthState where
  visited := state.visited
  stack := stack
  visits := state.visits ++ [⟨graph.nodeId node, depth, state.visits.length⟩]
  discoveryEdges := state.discoveryEdges ++ discovery.toList.map fun entry =>
    graph.traversedEdge entry.1 (graph.edgeAt entry.2)

/-- The loop of `depth_first`: the top of the stack is visited and its arcs are pushed. -/
def depthLoop : Nat → graph.DepthState → Option graph.DepthState
  | fuel, state =>
    match state.stack, fuel with
    | [], _ => some state
    | _ :: _, 0 => none
    | (node, depth, discovery) :: stack, fuel + 1 =>
      let state := graph.depthVisit state node depth discovery stack
      if graph.stopsAt options seeds node depth then depthLoop fuel state
      else depthLoop fuel ((graph.discoverArcs options state.visited []
        (graph.arcs node options.direction)).reverse.foldl (graph.depthPush node depth) state)

/-- Nothing is visited yet. -/
def depthStart : graph.DepthState where
  visited := fun _ => false
  stack := []
  visits := []
  discoveryEdges := []

/-- `depth_first`; `none` when the fuel runs out. -/
def depthFirst (fuel : Nat) : Option (TraversalResult Id EdgeId) :=
  (graph.depthLoop options seeds fuel (seeds.reverse.foldl graph.depthSeed graph.depthStart)).map
    fun state => { visits := state.visits, discoveryEdges := state.discoveryEdges }

/-! ## §4. Traversal. -/

/-- Indexes of the seeds, a repeat once. -/
def seedIndexes (ids : List Id) : Except (GraphError Id) (List graph.NodeIndex) :=
  ids.foldlM (fun indexes id =>
    match graph.nodeIndex id with
    | none => .error (.unknownNode id)
    | some index => .ok (if index ∈ indexes then indexes else indexes ++ [index])) []

/-- `traverse`. -/
def traverse (fuel : Nat) : Option (Except (GraphError Id) (TraversalResult Id EdgeId)) :=
  if options.seeds.isEmpty then
    some (.error (.invalidOption "traversal requires at least one seed"))
  else
    match graph.seedIndexes options.seeds with
    | .error error => some (.error error)
    | .ok seeds =>
      match options.strategy with
      | .breadthFirst => (graph.breadthFirst options seeds fuel).map .ok
      | .depthFirst => (graph.depthFirst options seeds fuel).map .ok

/-! ## §5. Arcs that are followed. -/

/-- An allowed edge from a node that may be expanded. -/
def Follows (u : graph.NodeIndex) (edge : graph.EdgeIndex) (v : graph.NodeIndex) : Prop :=
  (u ∈ seeds ∨ graph.suppressesHub u options.hubPolicy = false) ∧
    graph.Leads options.direction u edge v ∧
    edgeLabelAllowed (graph.edgeAt edge) options.allowedLabels = true

variable {graph options seeds} {node : graph.NodeIndex}

theorem stopsAt_eq_true
    (h : graph.stopsAt options seeds node depth = true) (hlt : (depth : ℕ∞) < options.maxDepth)
    (edge : graph.EdgeIndex) (v : graph.NodeIndex) : ¬ graph.Follows options seeds node edge v := by
  rintro ⟨hopen, _⟩
  have hlt : depth < options.maxDepth := by exact_mod_cast hlt
  unfold stopsAt at h
  rw [Bool.or_eq_true, decide_eq_true_eq, Bool.and_eq_true, Bool.not_eq_true',
    ← Bool.not_eq_true, contains_iff_mem] at h
  rcases h with h | ⟨hseed, hhub⟩
  · omega
  · rcases hopen with hopen | hopen
    · exact hseed hopen
    · simp [hopen] at hhub

theorem stopsAt_eq_false (h : graph.stopsAt options seeds node depth = false) :
    depth < options.maxDepth ∧ (node ∈ seeds ∨ graph.suppressesHub node options.hubPolicy = false) := by
  unfold stopsAt at h
  rw [Bool.or_eq_false_iff, decide_eq_false_iff_not, Bool.and_eq_false_iff, Bool.not_eq_false',
    contains_iff_mem] at h
  exact ⟨not_le.mp h.1, h.2⟩

/-- The arcs at a node with their edges in front. -/
def arcList (node : graph.NodeIndex) (direction : TraversalDirection) :
    List (graph.EdgeIndex × graph.NodeIndex) :=
  (graph.arcs node direction).map fun arc => (arc.edge, arc.neighbor)

theorem mem_arcList {node v : graph.NodeIndex} {edge : graph.EdgeIndex}
    {direction : TraversalDirection} (h : graph.Leads direction node edge v) :
    (edge, v) ∈ graph.arcList node direction :=
  mem_map.mpr ⟨⟨v, edge⟩, mem_arcs.mpr h, rfl⟩

variable (graph) in
/-- The visits of what was found, in the order it was found. -/
def recordVisits (found : Found graph.NodeIndex) : List (Visit Id) :=
  found.zipIdx.map fun entry => ⟨graph.nodeId entry.1.1, entry.1.2, entry.2⟩

theorem recordVisits_append (found : Found graph.NodeIndex) (v : graph.NodeIndex) (depth : Nat) :
    graph.recordVisits (found ++ [(v, depth)]) =
      graph.recordVisits found ++ [⟨graph.nodeId v, depth, (graph.recordVisits found).length⟩] := by
  unfold recordVisits
  rw [zipIdx_append]
  simp

/-! ## §6. The queue loop. -/

/-- The edge that discovered a node leads to it from a node one level up. -/
def Discovers (options : TraversalOptions Id) (seeds : List graph.NodeIndex)
    (found : Found graph.NodeIndex) (entry : graph.NodeIndex × ℕ)
    (edge : TraversedEdge Id EdgeId) : Prop :=
  ∃ u index depth, (u, depth) ∈ found ∧ entry.2 = depth + 1 ∧
    graph.Follows options seeds u index entry.1 ∧
    edge = graph.traversedEdge u (graph.edgeAt index)

/-- What the loop's variables hold when `found` was found. -/
structure BreadthOk (options : TraversalOptions Id) (seeds : List graph.NodeIndex)
    (state : graph.BreadthState) (found : Found graph.NodeIndex) : Prop where
  visited : ∀ v, state.visited v = true ↔ v ∈ found.map fst
  visits : state.visits = graph.recordVisits found
  discoveries : ∃ later, found = (seeds.map fun seed => (seed, 0)) ++ later ∧
    List.Forall₂ (Discovers options seeds found) later state.discoveryEdges

/-- One arc: it is passed over, or discovers a node. -/
theorem breadthArc_expanding {done : Found graph.NodeIndex}
    {state : graph.BreadthState} {arc : graph.ArcRef}
    {rest : List (graph.EdgeIndex × graph.NodeIndex)}
    (hopen : node ∈ seeds ∨ graph.suppressesHub node options.hubPolicy = false)
    (harc : graph.Leads options.direction node arc.edge arc.neighbor)
    (h : Expanding (graph.Follows options seeds) (· ∈ seeds) options.maxDepth node depth done
      state.queue ((arc.edge, arc.neighbor) :: rest))
    (hok : BreadthOk options seeds state (done ++ (node, depth) :: state.queue)) :
    Expanding (graph.Follows options seeds) (· ∈ seeds) options.maxDepth node depth done
      (graph.breadthArc options node depth state arc).queue rest ∧
    BreadthOk options seeds (graph.breadthArc options node depth state arc)
      (done ++ (node, depth) :: (graph.breadthArc options node depth state arc).queue) := by
  unfold breadthArc
  split_ifs with hskip
  · refine ⟨h.skip ?_, hok⟩
    rintro ⟨_, _, hlabel⟩
    rw [hlabel] at hskip
    exact (hok.visited _).mp hskip
  · rw [Bool.or_eq_true, not_or, Bool.not_eq_true', Bool.not_eq_false, hok.visited] at hskip
    have hfollows : graph.Follows options seeds node arc.edge arc.neighbor :=
      ⟨hopen, harc, hskip.1⟩
    have hfound : done ++ (node, depth) :: (state.queue ++ [(arc.neighbor, depth + 1)]) =
        (done ++ (node, depth) :: state.queue) ++ [(arc.neighbor, depth + 1)] := by simp
    refine ⟨h.discover hfollows hskip.2, ?_⟩
    obtain ⟨later, hlater, hedges⟩ := hok.discoveries
    rw [hfound]
    refine { visited := ?_, visits := ?_, discoveries := ?_ }
    · exact update_visited hok.visited _ _
    · rw [recordVisits_append, ← hok.visits]
    · refine ⟨later ++ [(arc.neighbor, depth + 1)], by rw [hlater, append_assoc], ?_⟩
      apply rel_append
      · exact hedges.imp fun _ _ ⟨u, index, depth, hmem, hrest⟩ =>
          ⟨u, index, depth, subset_append_left _ _ hmem, hrest⟩
      · exact .cons ⟨node, arc.edge, depth, by simp, rfl, hfollows, rfl⟩ .nil

/-- All arcs of a node. -/
theorem breadthArcs_expanding {done : Found graph.NodeIndex}
    (hopen : node ∈ seeds ∨ graph.suppressesHub node options.hubPolicy = false) :
    ∀ (arcs : List graph.ArcRef) {state : graph.BreadthState},
      (∀ arc ∈ arcs, graph.Leads options.direction node arc.edge arc.neighbor) →
      Expanding (graph.Follows options seeds) (· ∈ seeds) options.maxDepth node depth done
        state.queue (arcs.map fun arc => (arc.edge, arc.neighbor)) →
      BreadthOk options seeds state (done ++ (node, depth) :: state.queue) →
      Expanding (graph.Follows options seeds) (· ∈ seeds) options.maxDepth node depth done
        (arcs.foldl (graph.breadthArc options node depth) state).queue [] ∧
      BreadthOk options seeds (arcs.foldl (graph.breadthArc options node depth) state)
        (done ++ (node, depth) :: (arcs.foldl (graph.breadthArc options node depth) state).queue) := by
  intro arcs
  induction arcs with
  | nil => exact fun _ h hok => ⟨h, hok⟩
  | cons arc arcs ih =>
    intro state harcs h hok
    rw [forall_mem_cons] at harcs
    obtain ⟨h, hok⟩ := breadthArc_expanding hopen harcs.1 h hok
    exact ih harcs.2 h hok

/-- **The queue loop** ends, with everything within the bound found. -/
theorem breadthLoop_levels (fuel : Nat) : ∀ {state : graph.BreadthState}
    {done : Found graph.NodeIndex},
    Levels (graph.Follows options seeds) (· ∈ seeds) options.maxDepth done state.queue →
    BreadthOk options seeds state (done ++ state.queue) →
    graph.nodeCount ≤ done.length + fuel →
    ∃ final found, graph.breadthLoop options seeds fuel state = some final ∧
      Levels (graph.Follows options seeds) (· ∈ seeds) options.maxDepth found [] ∧
      BreadthOk options seeds final found := by
  induction fuel with
  | zero =>
    intro state done h hok hfuel
    have hempty : state.queue = [] :=
      eq_nil_of_card_le h.nodup (by rwa [Fintype.card_fin])
    unfold breadthLoop
    rw [hempty] at h hok ⊢
    rw [append_nil] at hok
    exact ⟨state, done, rfl, h, hok⟩
  | succ fuel ih =>
    intro state done h hok hfuel
    unfold breadthLoop
    cases hqueue : state.queue with
    | nil =>
      rw [hqueue] at h hok
      rw [append_nil] at hok
      exact ⟨state, done, rfl, h, hok⟩
    | cons entry queue =>
      obtain ⟨node, depth⟩ := entry
      rw [hqueue] at h hok
      have hnext : graph.nodeCount ≤ (done ++ [(node, depth)]).length + fuel := by
        rw [length_append, length_singleton]
        omega
      have hpopped : BreadthOk options seeds { state with queue }
          (done ++ (node, depth) :: queue) :=
        { visited := hok.visited, visits := hok.visits, discoveries := hok.discoveries }
      show ∃ final found, (if graph.stopsAt options seeds node depth then _ else _) = _ ∧ _
      split_ifs with hstop
      · refine ih (h.pass fun hlt => stopsAt_eq_true hstop hlt) ?_ hnext
        rwa [← append_cons]
      · rw [Bool.not_eq_true] at hstop
        obtain ⟨hlt, hopen⟩ := stopsAt_eq_false hstop
        have htaken : Expanding (graph.Follows options seeds) (· ∈ seeds) options.maxDepth node
            depth done queue (graph.arcList node options.direction) :=
          h.take (by exact_mod_cast hlt) fun e v hstep => mem_arcList hstep.2.1
        obtain ⟨hexpanded, hexpandedOk⟩ := breadthArcs_expanding hopen
          (graph.arcs node options.direction) (fun arc harc => mem_arcs.mp harc) htaken hpopped
        refine ih hexpanded.finish ?_ hnext
        rwa [← append_cons]

theorem breadthSeeds_spec (seeds : List graph.NodeIndex) : ∀ {state : graph.BreadthState},
    (∀ v, state.visited v = true ↔ v ∈ state.queue.map fst) →
    state.visits = graph.recordVisits state.queue →
    (seeds.foldl graph.breadthSeed state).queue =
        state.queue ++ seeds.map (fun seed => (seed, 0)) ∧
      (∀ v, (seeds.foldl graph.breadthSeed state).visited v = true ↔
        v ∈ (seeds.foldl graph.breadthSeed state).queue.map fst) ∧
      (seeds.foldl graph.breadthSeed state).visits =
        graph.recordVisits (seeds.foldl graph.breadthSeed state).queue ∧
      (seeds.foldl graph.breadthSeed state).discoveryEdges = state.discoveryEdges := by
  induction seeds with
  | nil => exact fun hvisited hvisits => ⟨by simp, hvisited, hvisits, rfl⟩
  | cons seed seeds ih =>
    intro state hvisited hvisits
    have hnext : ∀ v, (graph.breadthSeed state seed).visited v = true ↔
        v ∈ (graph.breadthSeed state seed).queue.map fst :=
      update_visited hvisited seed 0
    have hrecord : (graph.breadthSeed state seed).visits =
        graph.recordVisits (graph.breadthSeed state seed).queue := by
      show state.visits ++ _ = graph.recordVisits (state.queue ++ [(seed, 0)])
      rw [recordVisits_append, hvisits]
    obtain ⟨hqueue, hrest⟩ := ih hnext hrecord
    refine ⟨?_, hrest⟩
    rw [foldl_cons, hqueue, map_cons]
    show (state.queue ++ [(seed, 0)]) ++ _ = _
    rw [append_assoc, singleton_append]

variable (options) in
/-- **Breadth-first traversal** ends, with everything within the bound found. -/
theorem breadthFirst_levels (hnodup : seeds.Nodup) (hfuel : graph.nodeCount ≤ fuel) :
    ∃ final found, graph.breadthFirst options seeds fuel =
        some { visits := final.visits, discoveryEdges := final.discoveryEdges } ∧
      Levels (graph.Follows options seeds) (· ∈ seeds) options.maxDepth found [] ∧
      BreadthOk options seeds final found := by
  have hunvisited : ∀ v, graph.breadthStart.visited v = true ↔
      v ∈ graph.breadthStart.queue.map fst := by simp [breadthStart]
  obtain ⟨hqueue, hvisited, hvisits, hedges⟩ := breadthSeeds_spec seeds hunvisited rfl
  have hqueue : (seeds.foldl graph.breadthSeed graph.breadthStart).queue =
      seeds.map fun seed => (seed, 0) := hqueue
  have hok : BreadthOk options seeds (seeds.foldl graph.breadthSeed graph.breadthStart)
      ([] ++ (seeds.foldl graph.breadthSeed graph.breadthStart).queue) := by
    refine { visited := hvisited, visits := hvisits, discoveries := ⟨[], ?_, ?_⟩ }
    · rw [nil_append, append_nil, hqueue]
    · rw [hedges]
      exact .nil
  have hlevels : Levels (graph.Follows options seeds) (· ∈ seeds) options.maxDepth []
      (seeds.foldl graph.breadthSeed graph.breadthStart).queue := by
    rw [hqueue]
    exact .start hnodup fun _ => Iff.rfl
  obtain ⟨final, found, hloop, hfinal⟩ := breadthLoop_levels fuel hlevels hok (by simpa using hfuel)
  exact ⟨final, found, by rw [breadthFirst, hloop]; rfl, hfinal⟩

/-! ## §7. The stack loop. -/

/-- The nodes on the stack with their depths. -/
def DepthState.waiting (state : graph.DepthState) : Found graph.NodeIndex :=
  state.stack.map fun entry => (entry.1, entry.2.1)

/-- The state after the nodes `done`: they and what waits are marked, and they are recorded. -/
structure DepthOk (state : graph.DepthState) (done : Found graph.NodeIndex) : Prop where
  visited : ∀ v, state.visited v = true ↔ v ∈ (done ++ state.waiting).map fst
  visits : state.visits = graph.recordVisits done

theorem discoverArcs_spec {visited : graph.NodeIndex → Bool} (arcs : List graph.ArcRef) :
    ∀ discovered : List graph.NodeIndex,
      ((graph.discoverArcs options visited discovered arcs).map ArcRef.neighbor).Nodup ∧
      (∀ arc ∈ graph.discoverArcs options visited discovered arcs,
        arc ∈ arcs ∧ visited arc.neighbor = false ∧ arc.neighbor ∉ discovered ∧
          edgeLabelAllowed (graph.edgeAt arc.edge) options.allowedLabels = true) ∧
      ∀ arc ∈ arcs, edgeLabelAllowed (graph.edgeAt arc.edge) options.allowedLabels = true →
        visited arc.neighbor = true ∨ arc.neighbor ∈ discovered ∨
          arc.neighbor ∈ (graph.discoverArcs options visited discovered arcs).map ArcRef.neighbor := by
  induction arcs with
  | nil => exact fun _ => ⟨nodup_nil, (fun _ h => nomatch h), fun _ h => nomatch h⟩
  | cons arc arcs ih =>
    intro discovered
    unfold discoverArcs
    split_ifs with hnew
    · rw [Bool.and_eq_true, Bool.and_eq_true, Bool.not_eq_true', Bool.not_eq_true',
        ← Bool.not_eq_true (discovered.contains _), contains_iff_mem] at hnew
      obtain ⟨hnodup, hsound, hcomplete⟩ := ih (arc.neighbor :: discovered)
      refine ⟨?_, ?_, ?_⟩
      · rw [map_cons, nodup_cons]
        refine ⟨?_, hnodup⟩
        intro hmem
        obtain ⟨other, hother, hsame⟩ := mem_map.mp hmem
        exact (hsound other hother).2.2.1 (hsame ▸ mem_cons_self)
      · refine forall_mem_cons.mpr ⟨⟨mem_cons_self, hnew.1.1, hnew.2, hnew.1.2⟩, ?_⟩
        intro other hother
        obtain ⟨hmem, hunvisited, hout, hallowed⟩ := hsound other hother
        exact ⟨mem_cons_of_mem _ hmem, hunvisited,
          fun hin => hout (mem_cons_of_mem _ hin), hallowed⟩
      · refine forall_mem_cons.mpr ⟨fun _ => .inr (.inr (by simp)), ?_⟩
        intro other hother hallowed
        rcases hcomplete other hother hallowed with h | h | h
        · exact .inl h
        · rcases mem_cons.mp h with h | h
          · exact .inr (.inr (by rw [h]; simp))
          · exact .inr (.inl h)
        · exact .inr (.inr (mem_cons_of_mem _ h))
    · obtain ⟨hnodup, hsound, hcomplete⟩ := ih discovered
      refine ⟨hnodup, fun other hother => ?_, forall_mem_cons.mpr ⟨?_, hcomplete⟩⟩
      · obtain ⟨hmem, hrest⟩ := hsound other hother
        exact ⟨mem_cons_of_mem _ hmem, hrest⟩
      · intro hallowed
        rw [hallowed, Bool.and_true, Bool.and_eq_true, not_and_or, Bool.not_eq_true',
          Bool.not_eq_true', Bool.not_eq_false, Bool.not_eq_false, contains_iff_mem] at hnew
        exact hnew.imp id .inl

theorem depthPush_spec (fresh : List graph.ArcRef) :
    ∀ state : graph.DepthState,
      (fresh.reverse.foldl (graph.depthPush node depth) state).waiting =
        ((fresh.map ArcRef.neighbor).map fun v => (v, depth + 1)) ++ state.waiting ∧
      (∀ v, (fresh.reverse.foldl (graph.depthPush node depth) state).visited v = true ↔
        v ∈ fresh.map ArcRef.neighbor ∨ state.visited v = true) ∧
      (fresh.reverse.foldl (graph.depthPush node depth) state).visits = state.visits := by
  intro state
  rw [foldl_reverse]
  induction fresh with
  | nil => exact ⟨rfl, fun v => by simp, rfl⟩
  | cons arc fresh ih =>
    obtain ⟨hwaiting, hvisited, hvisits⟩ := ih
    rw [foldr_cons]
    refine ⟨?_, ?_, hvisits⟩
    · show (arc.neighbor, depth + 1) :: DepthState.waiting _ = _
      rw [hwaiting]
      rfl
    · intro v
      have hupdate : ∀ pushed : graph.DepthState, (graph.depthPush node depth pushed arc).visited v =
          Function.update pushed.visited arc.neighbor true v := fun _ => rfl
      rw [hupdate, update_true_iff, hvisited, map_cons, mem_cons, or_assoc]

/-- A node that is expanded pushes the unmarked ends of its arcs. -/
theorem discover_marks {done waiting : Found graph.NodeIndex}
    {visited : graph.NodeIndex → Bool}
    (h : Marks (graph.Follows options seeds) (· ∈ seeds) options.maxDepth done
      ((node, depth) :: waiting)) (hlt : depth < options.maxDepth)
    (hopen : node ∈ seeds ∨ graph.suppressesHub node options.hubPolicy = false)
    (hvisited : ∀ v, visited v = true ↔ v ∈ (done ++ (node, depth) :: waiting).map fst) :
    Marks (graph.Follows options seeds) (· ∈ seeds) options.maxDepth (done ++ [(node, depth)])
      ((((graph.discoverArcs options visited [] (graph.arcs node options.direction)).map
        ArcRef.neighbor).map fun v => (v, depth + 1)) ++ waiting) ∧
    ∀ v, v ∈ ((done ++ [(node, depth)]) ++
        ((((graph.discoverArcs options visited [] (graph.arcs node options.direction)).map
          ArcRef.neighbor).map fun v => (v, depth + 1)) ++ waiting)).map fst ↔
      v ∈ (graph.discoverArcs options visited [] (graph.arcs node options.direction)).map
        ArcRef.neighbor ∨ visited v = true := by
  generalize hfresh : graph.discoverArcs options visited [] (graph.arcs node options.direction) =
    fresh
  obtain ⟨hnodup, hsound, hcomplete⟩ := hfresh ▸ discoverArcs_spec _ _
  refine ⟨h.take hnodup ?_ ?_ ?_, ?_⟩
  · intro v hv
    obtain ⟨arc, harc, rfl⟩ := mem_map.mp hv
    rw [← hvisited, (hsound arc harc).2.1]
    exact Bool.false_ne_true
  · intro v hv
    obtain ⟨arc, harc, rfl⟩ := mem_map.mp hv
    obtain ⟨hmem, _, _, hallowed⟩ := hsound arc harc
    exact ⟨by exact_mod_cast hlt, arc.edge, hopen, mem_arcs.mp hmem, hallowed⟩
  · rintro _ e v ⟨_, hleads, hallowed⟩
    rcases hcomplete ⟨v, e⟩ (mem_arcs.mpr hleads) hallowed with hmarked | hnone | hpushed
    · exact .inr ((hvisited v).mp hmarked)
    · cases hnone
    · exact .inl hpushed
  · intro v
    rw [hvisited]
    simp only [map_append, map_map, mem_append, map_cons, mem_cons]
    show (_ ∨ _) ∨ (v ∈ List.map (fun arc => ArcRef.neighbor arc) _ ∨ _) ↔ _
    tauto

/-- **The stack loop** ends, with every mark taken. -/
theorem depthLoop_marks (fuel : Nat) : ∀ {state : graph.DepthState} {done : Found graph.NodeIndex},
    Marks (graph.Follows options seeds) (· ∈ seeds) options.maxDepth done state.waiting →
    DepthOk state done → graph.nodeCount ≤ done.length + fuel →
    ∃ final found, graph.depthLoop options seeds fuel state = some final ∧
      Marks (graph.Follows options seeds) (· ∈ seeds) options.maxDepth found [] ∧
      final.visits = graph.recordVisits found := by
  induction fuel with
  | zero =>
    intro state done h hok hfuel
    have hwaiting : state.waiting = [] :=
      eq_nil_of_card_le h.nodup (by rwa [Fintype.card_fin])
    have hempty : state.stack = [] := map_eq_nil_iff.mp hwaiting
    unfold depthLoop
    rw [hempty]
    exact ⟨state, done, rfl, hwaiting ▸ h, hok.visits⟩
  | succ fuel ih =>
    intro state done h hok hfuel
    unfold depthLoop
    cases hstack : state.stack with
    | nil =>
      have hwaiting : state.waiting = [] := by rw [DepthState.waiting, hstack]; rfl
      exact ⟨state, done, rfl, hwaiting ▸ h, hok.visits⟩
    | cons entry stack =>
      obtain ⟨node, depth, discovery⟩ := entry
      have hwaiting : state.waiting = (node, depth) ::
          (graph.depthVisit state node depth discovery stack).waiting := by
        rw [DepthState.waiting, hstack]
        rfl
      rw [hwaiting] at h
      have hmarked : ∀ v, state.visited v = true ↔ v ∈ (done ++ (node, depth) ::
          (graph.depthVisit state node depth discovery stack).waiting).map fst := by
        rw [← hwaiting]
        exact hok.visited
      have hvisits : (graph.depthVisit state node depth discovery stack).visits =
          graph.recordVisits (done ++ [(node, depth)]) := by
        rw [recordVisits_append, ← hok.visits]
        rfl
      have hnext : graph.nodeCount ≤ (done ++ [(node, depth)]).length + fuel := by
        rw [length_append, length_singleton]
        omega
      show ∃ final found, (if graph.stopsAt options seeds node depth then _ else _) = _ ∧ _
      split_ifs with hstop
      · have htaken : Marks (graph.Follows options seeds) (· ∈ seeds) options.maxDepth
            (done ++ [(node, depth)]) (graph.depthVisit state node depth discovery stack).waiting :=
          h.take nodup_nil (fun _ hv => nomatch hv) (fun _ hv => nomatch hv)
            fun hlt e v hstep => absurd hstep (stopsAt_eq_true hstop hlt e v)
        refine ih htaken { visited := ?_, visits := hvisits } hnext
        rwa [← append_cons]
      · rw [Bool.not_eq_true] at hstop
        obtain ⟨hlt, hopen⟩ := stopsAt_eq_false hstop
        obtain ⟨hmarks, hmarked'⟩ := discover_marks h hlt hopen hmarked
        obtain ⟨hpushed, hpushedMarks, hpushedVisits⟩ := depthPush_spec
          (graph.discoverArcs options state.visited [] (graph.arcs node options.direction))
          (graph.depthVisit state node depth discovery stack)
        refine ih (hpushed ▸ hmarks) { visited := ?_, visits := hpushedVisits.trans hvisits } hnext
        intro v
        exact (hpushedMarks v).trans ((hmarked' v).symm.trans (by rw [← hpushed]; rfl))

theorem depthSeeds_spec (seeds : List graph.NodeIndex) (hnodup : seeds.Nodup) :
    (seeds.reverse.foldl graph.depthSeed graph.depthStart).waiting =
        seeds.map (fun seed => (seed, 0)) ∧
      (∀ v, (seeds.reverse.foldl graph.depthSeed graph.depthStart).visited v = true ↔ v ∈ seeds) ∧
      (seeds.reverse.foldl graph.depthSeed graph.depthStart).visits = [] := by
  rw [foldl_reverse]
  induction seeds with
  | nil => exact ⟨rfl, by simp [depthStart], rfl⟩
  | cons seed seeds ih =>
    rw [nodup_cons] at hnodup
    obtain ⟨hwaiting, hvisited, hvisits⟩ := ih hnodup.2
    rw [foldr_cons]
    generalize List.foldr (fun x y => graph.depthSeed y x) graph.depthStart seeds = state at *
    have hnew : state.visited seed = false := by
      rw [← Bool.not_eq_true, hvisited]
      exact hnodup.1
    unfold depthSeed
    rw [if_neg (by rw [hnew]; exact Bool.false_ne_true)]
    refine ⟨?_, ?_, hvisits⟩
    · show (seed, 0) :: state.waiting = _
      rw [hwaiting]
      rfl
    · intro v
      rw [update_true_iff, hvisited, mem_cons]

variable (options) in
/-- **Depth-first traversal** ends, with every mark taken. -/
theorem depthFirst_marks (hnodup : seeds.Nodup) (hfuel : graph.nodeCount ≤ fuel) :
    ∃ result found, graph.depthFirst options seeds fuel = some result ∧
      Marks (graph.Follows options seeds) (· ∈ seeds) options.maxDepth found [] ∧
      result.visits = graph.recordVisits found := by
  obtain ⟨hwaiting, hvisited, hvisits⟩ := depthSeeds_spec seeds hnodup
  have hmarks : Marks (graph.Follows options seeds) (· ∈ seeds) options.maxDepth []
      (seeds.reverse.foldl graph.depthSeed graph.depthStart).waiting := by
    rw [hwaiting]
    exact .start hnodup fun _ => Iff.rfl
  have hok : DepthOk (seeds.reverse.foldl graph.depthSeed graph.depthStart) [] := by
    refine { visited := ?_, visits := hvisits }
    intro v
    rw [hvisited, nil_append, hwaiting, map_fst_at]
  obtain ⟨final, found, hloop, hfound, hfinal⟩ := depthLoop_marks fuel hmarks hok (by simpa using hfuel)
  exact ⟨_, found, by rw [depthFirst, hloop]; rfl, hfound, hfinal⟩

/-! ## §8. What is visited. -/

variable (graph options) in
/-- An allowed edge from a seed, or from a node that is no suppressed hub. -/
def AllowedStep (u : graph.NodeIndex) (edge : graph.EdgeIndex) (v : graph.NodeIndex) : Prop :=
  (graph.nodeId u ∈ options.seeds ∨ graph.suppressesHub u options.hubPolicy = false) ∧
    graph.Leads options.direction u edge v ∧
    edgeLabelAllowed (graph.edgeAt edge) options.allowedLabels = true

variable (graph options) in
/-- A seed reaches `v` by a walk of `k` allowed edges whose interior nodes are
seeds or no suppressed hubs. -/
def Reaches (k : Nat) (v : graph.NodeIndex) : Prop :=
  ReachedIn (graph.AllowedStep options) (fun seed => graph.nodeId seed ∈ options.seeds) k v

/-- The seeds of a traversal are indexes of its seed list. -/
theorem seedIndexes_ok {ids : List Id} (hexist : ∀ id ∈ ids, id ∈ graph.nodes) :
    ∃ seeds, graph.seedIndexes ids = .ok seeds ∧ seeds.Nodup ∧
      ∀ node, node ∈ seeds ↔ graph.nodeId node ∈ ids := by
  apply foldlM_total (fun (done : List Id) (seeds : List graph.NodeIndex) =>
    seeds.Nodup ∧ ∀ node, node ∈ seeds ↔ graph.nodeId node ∈ done)
  · exact ⟨nodup_nil, by simp⟩
  · rintro done id rest seeds hids ⟨hnodup, hmem⟩
    have hid : id ∈ graph.nodes := hexist id (by rw [hids]; simp)
    obtain ⟨index, rfl⟩ : ∃ index, graph.nodeId index = id := get_of_mem hid
    rw [nodeIndex_nodeId]
    have hlast : ∀ node, graph.nodeId node ∈ done ++ [graph.nodeId index] ↔
        node ∈ seeds ∨ node = index := by
      intro node
      rw [mem_append, ← hmem, mem_singleton, graph.nodeId_injective.eq_iff]
    refine ⟨_, rfl, ?_⟩
    split_ifs with hold
    · refine ⟨hnodup, fun node => ?_⟩
      rw [hlast]
      exact ⟨.inl, fun h => h.elim id fun h => h ▸ hold⟩
    · refine ⟨nodup_append.mpr ⟨hnodup, nodup_singleton _, ?_⟩, fun node => ?_⟩
      · intro a ha b hb
        rw [mem_singleton.mp hb]
        rintro rfl
        exact hold ha
      · rw [hlast, mem_append, mem_singleton]

theorem follows_eq_allowedStep (hseeds : ∀ node, node ∈ seeds ↔ graph.nodeId node ∈ options.seeds) :
    graph.Follows options seeds = graph.AllowedStep options := by
  funext u edge v
  rw [Follows, AllowedStep, hseeds]

theorem reachedIn_iff_reaches (hseeds : ∀ node, node ∈ seeds ↔ graph.nodeId node ∈ options.seeds)
    {k : Nat} {v : graph.NodeIndex} :
    ReachedIn (graph.Follows options seeds) (· ∈ seeds) k v ↔ graph.Reaches options k v := by
  have hseed : (· ∈ seeds) = fun seed => graph.nodeId seed ∈ options.seeds :=
    funext fun node => propext (hseeds node)
  rw [Reaches, hseed, follows_eq_allowedStep hseeds]

theorem map_nodeId_recordVisits (found : Found graph.NodeIndex) :
    (graph.recordVisits found).map Visit.nodeId = found.map fun entry => graph.nodeId entry.1 := by
  rw [recordVisits, map_map]
  show found.zipIdx.map ((fun entry => graph.nodeId entry.1) ∘ fst) = _
  rw [← map_map, zipIdx_map_fst]

theorem nodup_recordVisits {found : Found graph.NodeIndex} (h : (found.map fst).Nodup) :
    ((graph.recordVisits found).map Visit.nodeId).Nodup := by
  rw [map_nodeId_recordVisits]
  show (found.map (graph.nodeId ∘ fst)).Nodup
  rw [← map_map]
  exact h.map graph.nodeId_injective

theorem mem_recordVisits {found : Found graph.NodeIndex} {visit : Visit Id}
    (h : visit ∈ graph.recordVisits found) :
    ∃ v, (v, visit.depth) ∈ found ∧ graph.nodeId v = visit.nodeId := by
  obtain ⟨entry, hentry, rfl⟩ := mem_map.mp h
  exact ⟨entry.1.1, fst_mem_of_mem_zipIdx hentry, rfl⟩

theorem nodeId_mem_recordVisits {found : Found graph.NodeIndex} {v : graph.NodeIndex} :
    graph.nodeId v ∈ (graph.recordVisits found).map Visit.nodeId ↔ v ∈ found.map fst := by
  rw [map_nodeId_recordVisits]
  show graph.nodeId v ∈ found.map (graph.nodeId ∘ fst) ↔ _
  rw [← map_map, mem_map_of_injective graph.nodeId_injective]

/-- The visits that no seed made. -/
theorem filter_recordVisits {later : Found graph.NodeIndex}
    (hseeds : ∀ node, node ∈ seeds ↔ graph.nodeId node ∈ options.seeds)
    (hlater : ∀ entry ∈ later, entry.1 ∉ seeds) :
    (graph.recordVisits ((seeds.map fun seed => (seed, 0)) ++ later)).filter
        (fun visit => visit.nodeId ∉ options.seeds) =
      (later.zipIdx seeds.length).map fun entry =>
        ⟨graph.nodeId entry.1.1, entry.1.2, entry.2⟩ := by
  rw [recordVisits, zipIdx_append, map_append, filter_append]
  have hnone : ∀ visit ∈ graph.recordVisits (seeds.map fun seed => (seed, 0)),
      ¬ visit.nodeId ∉ options.seeds := by
    intro visit hvisit hout
    obtain ⟨v, hv, hid⟩ := mem_recordVisits hvisit
    obtain ⟨seed, hseed, heq⟩ := mem_map.mp hv
    obtain rfl : seed = v := congrArg fst heq
    exact hout (hid ▸ (hseeds seed).mp hseed)
  rw [filter_eq_nil_iff.mpr (by simpa [recordVisits] using hnone), nil_append,
    filter_eq_self.mpr]
  · rw [length_map, Nat.zero_add]
  · intro visit hvisit
    obtain ⟨entry, hentry, rfl⟩ := mem_map.mp hvisit
    rw [decide_eq_true_eq, ← hseeds]
    exact hlater entry.1 (fst_mem_of_mem_zipIdx hentry)

variable (graph options) in
/-- The edge of a discovery leads to the visit from a node of depth one less. -/
def DiscoveredBy (result : TraversalResult Id EdgeId) (visit : Visit Id)
    (edge : TraversedEdge Id EdgeId) : Prop :=
  ∃ u index v, graph.nodeId v = visit.nodeId ∧ graph.AllowedStep options u index v ∧
    edge = graph.traversedEdge u (graph.edgeAt index) ∧
    ∃ earlier ∈ result.visits, earlier.nodeId = graph.nodeId u ∧ visit.depth = earlier.depth + 1

variable (graph options) in
/-- What a breadth-first traversal returns. -/
structure BreadthFirstVisits (result : TraversalResult Id EdgeId) : Prop where
  once : (result.visits.map Visit.nodeId).Nodup
  visited : ∀ id, id ∈ result.visits.map Visit.nodeId ↔
    ∃ v k, graph.nodeId v = id ∧ k ≤ options.maxDepth ∧ graph.Reaches options k v
  least : ∀ visit ∈ result.visits, ∃ v, graph.nodeId v = visit.nodeId ∧
    graph.Reaches options visit.depth v ∧ ∀ k, graph.Reaches options k v → visit.depth ≤ k
  discovered : List.Forall₂ (graph.DiscoveredBy options result)
    (result.visits.filter fun visit => visit.nodeId ∉ options.seeds) result.discoveryEdges

variable (options) in
theorem breadthFirst_visits (hnodup : seeds.Nodup)
    (hseeds : ∀ node, node ∈ seeds ↔ graph.nodeId node ∈ options.seeds)
    (hfuel : graph.nodeCount ≤ fuel) :
    ∃ result, graph.breadthFirst options seeds fuel = some result ∧
      graph.BreadthFirstVisits options result := by
  obtain ⟨final, found, hresult, hlevels, hok⟩ := breadthFirst_levels options hnodup hfuel
  obtain ⟨later, hlater, hedges⟩ := hok.discoveries
  have hfound : (found.map fst).Nodup := by
    simpa using hlevels.nodup
  refine ⟨_, hresult, { once := ?_, visited := ?_, least := ?_, discovered := ?_ }⟩
  · rw [hok.visits]
    exact nodup_recordVisits hfound
  · intro id
    rw [hok.visits]
    constructor
    · intro hid
      obtain ⟨visit, hvisit, rfl⟩ := mem_map.mp hid
      obtain ⟨v, hv, hid⟩ := mem_recordVisits hvisit
      obtain ⟨hreached, hdepth, _⟩ := hlevels.found_iff.mp hv
      exact ⟨v, visit.depth, hid, by exact_mod_cast hdepth, (reachedIn_iff_reaches hseeds).mp hreached⟩
    · rintro ⟨v, k, rfl, hk, hreached⟩
      obtain ⟨j, _, hmem⟩ := hlevels.complete (by exact_mod_cast hk)
        ((reachedIn_iff_reaches hseeds).mpr hreached)
      exact nodeId_mem_recordVisits.mpr (mem_map_of_mem hmem)
  · intro visit hvisit
    rw [hok.visits] at hvisit
    obtain ⟨v, hv, hid⟩ := mem_recordVisits hvisit
    obtain ⟨hreached, _, hleast⟩ := hlevels.found_iff.mp hv
    exact ⟨v, hid, (reachedIn_iff_reaches hseeds).mp hreached, fun k hk =>
      hleast k ((reachedIn_iff_reaches hseeds).mpr hk)⟩
  · -- a node found later is no seed: the seeds were found first
    have hnew : ∀ entry ∈ later, entry.1 ∉ seeds := by
      rw [hlater, map_append, map_map] at hfound
      intro entry hentry hseed
      refine (nodup_append.mp hfound).2.2 entry.1 ?_ entry.1 (mem_map_of_mem hentry) rfl
      exact mem_map.mpr ⟨entry.1, hseed, rfl⟩
    have hvisits : final.visits.filter (fun visit => visit.nodeId ∉ options.seeds) = _ :=
      (congrArg _ (hok.visits.trans (congrArg _ hlater))).trans (filter_recordVisits hseeds hnew)
    rw [hvisits, forall₂_map_left_iff]
    rw [← zipIdx_map_fst seeds.length later, forall₂_map_left_iff] at hedges
    refine hedges.imp ?_
    rintro entry edge ⟨u, index, depth, hu, hdepth, hfollows, hedge⟩
    refine ⟨u, index, entry.1.1, rfl, follows_eq_allowedStep hseeds ▸ hfollows, hedge, ?_⟩
    rw [← zipIdx_map_fst 0 found] at hu
    obtain ⟨⟨_, i⟩, hi, rfl⟩ := mem_map.mp hu
    exact ⟨⟨graph.nodeId u, depth, i⟩, hok.visits ▸ mem_map.mpr ⟨_, hi, rfl⟩, rfl, hdepth⟩

variable (graph options) in
/-- What a depth-first traversal returns. -/
structure DepthFirstVisits (result : TraversalResult Id EdgeId) : Prop where
  once : (result.visits.map Visit.nodeId).Nodup
  reached : ∀ visit ∈ result.visits, ∃ v k, graph.nodeId v = visit.nodeId ∧
    k ≤ options.maxDepth ∧ graph.Reaches options k v
  complete : graph.nodeCount ≤ options.maxDepth → ∀ v k, graph.Reaches options k v →
    graph.nodeId v ∈ result.visits.map Visit.nodeId

variable (options) in
theorem depthFirst_visits (hnodup : seeds.Nodup)
    (hseeds : ∀ node, node ∈ seeds ↔ graph.nodeId node ∈ options.seeds)
    (hfuel : graph.nodeCount ≤ fuel) :
    ∃ result, graph.depthFirst options seeds fuel = some result ∧
      graph.DepthFirstVisits options result := by
  obtain ⟨result, found, hresult, hmarks, hvisits⟩ := depthFirst_marks options hnodup hfuel
  refine ⟨result, hresult, { once := ?_, reached := ?_, complete := ?_ }⟩
  · rw [hvisits]
    exact nodup_recordVisits (by simpa using hmarks.nodup)
  · intro visit hvisit
    rw [hvisits] at hvisit
    obtain ⟨v, hv, hid⟩ := mem_recordVisits hvisit
    obtain ⟨hreached, hdepth⟩ := hmarks.reached _ (mem_append_left _ hv)
    exact ⟨v, visit.depth, hid, by exact_mod_cast hdepth, (reachedIn_iff_reaches hseeds).mp hreached⟩
  · intro hroom v k hreached
    rw [hvisits, nodeId_mem_recordVisits]
    refine hmarks.complete ?_ ((reachedIn_iff_reaches hseeds).mpr hreached)
    rw [Fintype.card_fin]
    exact_mod_cast hroom

/-- **Traversals.**  Breadth-first visits what the seeds reach within the depth,
once and at the least depth, with one edge for each discovery; depth-first visits
nothing else, and with room for every node nothing less. -/
theorem traverse_visits (graph : Graph Id EdgeId) (options : TraversalOptions Id)
    (hsome : options.seeds ≠ []) (hexist : ∀ id ∈ options.seeds, id ∈ graph.nodes) {fuel : Nat}
    (hfuel : graph.nodeCount ≤ fuel) :
    ∃ breadth depth,
      graph.traverse { options with strategy := .breadthFirst } fuel = some (.ok breadth) ∧
      graph.traverse { options with strategy := .depthFirst } fuel = some (.ok depth) ∧
      graph.BreadthFirstVisits options breadth ∧ graph.DepthFirstVisits options depth ∧
      (graph.nodeCount ≤ options.maxDepth → ∀ id,
        id ∈ depth.visits.map Visit.nodeId ↔ id ∈ breadth.visits.map Visit.nodeId) := by
  obtain ⟨seeds, hindexes, hnodup, hseeds⟩ := seedIndexes_ok hexist
  obtain ⟨breadth, hbreadth, hbreadthVisits⟩ :=
    breadthFirst_visits { options with strategy := .breadthFirst } hnodup hseeds hfuel
  obtain ⟨depth, hdepth, hdepthVisits⟩ :=
    depthFirst_visits { options with strategy := .depthFirst } hnodup hseeds hfuel
  have hempty : options.seeds.isEmpty = false := by simpa using hsome
  -- what a traversal reaches does not depend on its strategy
  have hbreadthVisits : graph.BreadthFirstVisits options breadth :=
    ⟨hbreadthVisits.once, hbreadthVisits.visited, hbreadthVisits.least, hbreadthVisits.discovered⟩
  have hdepthVisits : graph.DepthFirstVisits options depth :=
    ⟨hdepthVisits.once, hdepthVisits.reached, hdepthVisits.complete⟩
  refine ⟨breadth, depth, ?_, ?_, hbreadthVisits, hdepthVisits, ?_⟩
  · simp [traverse, hempty, hindexes, hbreadth]
  · simp [traverse, hempty, hindexes, hdepth]
  · intro hroom id
    rw [hbreadthVisits.visited]
    constructor
    · intro hid
      obtain ⟨visit, hvisit, rfl⟩ := List.mem_map.mp hid
      exact hdepthVisits.reached visit hvisit
    · rintro ⟨v, k, rfl, _, hreached⟩
      exact hdepthVisits.complete hroom v k hreached

/-- Two nodes with an edge between them and a loop. -/
def pairGraph : Graph Nat Nat where
  kind := .diGraph
  nodes := [3, 5]
  edges := [⟨0, none, 3, 5, some "CALLS"⟩, ⟨1, none, 5, 5, none⟩]
  nodes_sorted := by decide
  edges_sorted := by decide
  endpoints := by decide
  simple := by decide

/-- A seed may be listed twice. -/
def pairOptions : TraversalOptions Nat where
  strategy := .breadthFirst
  seeds := [3, 3]
  maxDepth := 2
  direction := .out
  allowedLabels := ["CALLS"]
  hubPolicy := .stopNonSeedAtOrAbove 1

theorem traverse_visits_pairGraph : ∃ breadth depth,
    pairGraph.traverse { pairOptions with strategy := .breadthFirst } 2 = some (.ok breadth) ∧
    pairGraph.traverse { pairOptions with strategy := .depthFirst } 2 = some (.ok depth) ∧
    pairGraph.BreadthFirstVisits pairOptions breadth ∧
    pairGraph.DepthFirstVisits pairOptions depth ∧
    (pairGraph.nodeCount ≤ pairOptions.maxDepth → ∀ id,
      id ∈ depth.visits.map Visit.nodeId ↔ id ∈ breadth.visits.map Visit.nodeId) :=
  traverse_visits pairGraph pairOptions (by decide) (by decide) (by decide)

end Graph

end HelixDb.GraphAlgorithms
