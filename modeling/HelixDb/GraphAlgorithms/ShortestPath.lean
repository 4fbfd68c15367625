/-
  HelixDb.GraphAlgorithms.ShortestPath

  **SHORTEST PATHS** of a loaded graph.

  The search is breadth-first, keeps the arc that discovered each node, and stops
  when it discovers the target.  The path is then read off those arcs, from the
  target back to the source.

    • `Graph.pathLoop_spec` — the search ends with the target discovered at its
      least depth, or with everything found and the target not among it;
    • `Graph.Parents.reconstructFrom` — the arcs of a found node make a walk as
      long as the node is deep;
    • `Graph.shortestPath_least` — what is returned.
-/
import HelixDb.GraphAlgorithms.Traversal

namespace HelixDb.GraphAlgorithms

open HelixDb.Lib List

variable {Id EdgeId : Type} [LinearOrder Id] [LinearOrder EdgeId]

/-! ## §1. Results. -/

/-- An edge of the path, with the direction it was walked in. -/
structure PathEdge (Id EdgeId : Type) where
  edgeId : EdgeId
  graphifyKey : Option Id
  source : Id
  target : Id
  traversalDirection : EdgeTraversalDirection
  label : Option String

/-- The outcomes of a search. -/
inductive PathResult (Id EdgeId : Type) where
  | missingSource
  | missingTarget
  | noPath
  | found (nodeIds : List Id) (edges : List (PathEdge Id EdgeId))

variable {depth k : Nat}

namespace Graph

variable (graph : Graph Id EdgeId)

/-- The path edge walked from `previous`. -/
def pathEdge (previous : graph.NodeIndex) (edge : Edge Id EdgeId) : PathEdge Id EdgeId where
  edgeId := edge.id
  graphifyKey := edge.graphifyKey
  source := edge.source
  target := edge.target
  traversalDirection := graph.edgeDirection previous edge
  label := edge.label

/-! ## §2. The search. -/

/-- The arc that discovered each node. -/
abbrev Predecessors := graph.NodeIndex → Option (graph.NodeIndex × graph.EdgeIndex)

/-- The state of the search: what is visited, from where, and what waits. -/
structure PathState where
  visited : graph.NodeIndex → Bool
  predecessor : graph.Predecessors
  queue : List (graph.NodeIndex × Nat)

/-- What following the arcs of a node ends with. -/
inductive PathScan where
  | reached (predecessor : graph.Predecessors)
  | searched (state : graph.PathState)

variable (target : graph.NodeIndex) (direction : TraversalDirection) (allowedLabels : List String)
  (maxDepth : Option Nat)

/-- The arcs of one node, up to the target. -/
def pathArcs (node : graph.NodeIndex) (depth : Nat) :
    List graph.ArcRef → graph.PathState → graph.PathScan
  | [], state => .searched state
  | arc :: arcs, state =>
    if state.visited arc.neighbor || !edgeLabelAllowed (graph.edgeAt arc.edge) allowedLabels then
      pathArcs node depth arcs state
    else
      let predecessor := Function.update state.predecessor arc.neighbor (some (node, arc.edge))
      if arc.neighbor = target then .reached predecessor
      else pathArcs node depth arcs {
        visited := Function.update state.visited arc.neighbor true
        predecessor
        queue := state.queue ++ [(arc.neighbor, depth + 1)] }

/-- The loop over the queue: the arcs that lead to the target, if it was
discovered.  `none` when the fuel does not suffice. -/
def pathLoop : Nat → graph.PathState → Option (Option graph.Predecessors)
  | fuel, state =>
    match state.queue, fuel with
    | [], _ => some none
    | _ :: _, 0 => none
    | (node, depth) :: queue, fuel + 1 =>
      if maxDepth.any fun bound => decide (bound ≤ depth) then
        pathLoop fuel { state with queue }
      else
        match graph.pathArcs target allowedLabels node depth (graph.arcs node direction)
          { state with queue } with
        | .reached predecessor => some (some predecessor)
        | .searched state => pathLoop fuel state

/-- The loop of `reconstruct_path`; an error is its unreachable branch. -/
def reconstructFrom (source : graph.NodeIndex) (predecessor : graph.Predecessors) :
    Nat → graph.NodeIndex → List graph.NodeIndex → List (PathEdge Id EdgeId) →
      Option (Except String (PathResult Id EdgeId))
  | fuel, current, nodes, edges =>
    if current = source then
      some (.ok (.found (nodes.reverse.map graph.nodeId) edges.reverse))
    else
      match fuel with
      | 0 => none
      | fuel + 1 =>
        match predecessor current with
        | none => some (.error "visited target has a complete predecessor chain")
        | some (previous, edge) =>
          reconstructFrom source predecessor fuel previous (nodes ++ [previous])
            (edges ++ [graph.pathEdge previous (graph.edgeAt edge)])

/-- The source waits at depth 0. -/
def pathStart (source : graph.NodeIndex) : graph.PathState where
  visited := Function.update (fun _ => false) source true
  predecessor := fun _ => none
  queue := [(source, 0)]

/-- `shortest_path`; `none` when the fuel runs out. -/
def shortestPath (source target : Id) (direction : TraversalDirection)
    (allowedLabels : List String) (maxDepth : Option Nat) (fuel : Nat) :
    Option (Except String (PathResult Id EdgeId)) :=
  match graph.nodeIndex source with
  | none => some (.ok .missingSource)
  | some sourceIndex =>
    match graph.nodeIndex target with
    | none => some (.ok .missingTarget)
    | some targetIndex =>
      if sourceIndex = targetIndex then some (.ok (.found [source] []))
      else
        match graph.pathLoop targetIndex direction allowedLabels maxDepth fuel
          (graph.pathStart sourceIndex) with
        | none => none
        | some none => some (.ok .noPath)
        | some (some predecessor) =>
          graph.reconstructFrom sourceIndex predecessor fuel targetIndex [targetIndex] []

/-! ## §3. Walks. -/

/-- An allowed edge in the given direction. -/
def PathStep (u : graph.NodeIndex) (edge : graph.EdgeIndex) (v : graph.NodeIndex) : Prop :=
  graph.Leads direction u edge v ∧ edgeLabelAllowed (graph.edgeAt edge) allowedLabels = true

/-- The edges of a walk, as a path lists them. -/
def walkEdges : graph.NodeIndex → List (graph.EdgeIndex × graph.NodeIndex) →
    List (PathEdge Id EdgeId)
  | _, [] => []
  | u, (edge, v) :: path => graph.pathEdge u (graph.edgeAt edge) :: walkEdges v path

/-- No bound is above every length. -/
def depthBound (maxDepth : Option Nat) : ℕ∞ :=
  maxDepth.elim ⊤ fun bound => (bound : ℕ∞)

variable {graph target direction allowedLabels maxDepth}

theorem walkEdges_snoc {step : graph.NodeIndex → graph.EdgeIndex → graph.NodeIndex → Prop}
    {start u v : graph.NodeIndex} {edge : graph.EdgeIndex}
    {path : List (graph.EdgeIndex × graph.NodeIndex)} (hwalk : Walk step start path u) :
    graph.walkEdges start (path ++ [(edge, v)]) =
      graph.walkEdges start path ++ [graph.pathEdge u (graph.edgeAt edge)] := by
  have hlast : ∀ (path : List (graph.EdgeIndex × graph.NodeIndex)) (start : graph.NodeIndex),
      graph.walkEdges start (path ++ [(edge, v)]) = graph.walkEdges start path ++
        [graph.pathEdge ((path.map Prod.snd).getLast?.getD start) (graph.edgeAt edge)] := by
    intro path
    induction path with
    | nil => exact fun _ => rfl
    | cons arc path ih =>
      intro start
      rw [cons_append, walkEdges, ih, walkEdges, cons_append, map_cons,
        getLast?_cons, Option.getD_some]
  rw [hlast]
  cases hwalk with
  | nil => rfl
  | snoc walk arc => simp

theorem depth_lt_bound (h : (maxDepth.any fun bound => decide (bound ≤ depth)) = false) :
    (depth : ℕ∞) < depthBound maxDepth := by
  cases maxDepth with
  | none => exact ENat.natCast_lt_top depth
  | some bound =>
    rw [Option.any_some, decide_eq_false_iff_not, not_le] at h
    exact Nat.cast_lt.mpr h

theorem bound_le_depth (h : (maxDepth.any fun bound => decide (bound ≤ depth)) = true) :
    ¬ (depth : ℕ∞) < depthBound maxDepth := by
  cases maxDepth with
  | none => cases h
  | some bound =>
    rw [Option.any_some, decide_eq_true_eq] at h
    exact not_lt.mpr (Nat.cast_le.mpr h)

/-! ## §4. The arcs kept are those of a tree. -/

/-- Every node found is the source, or was discovered from a node one level up. -/
structure Parents (step : graph.NodeIndex → graph.EdgeIndex → graph.NodeIndex → Prop)
    (source : graph.NodeIndex) (predecessor : graph.Predecessors)
    (found : Found graph.NodeIndex) : Prop where
  source_depth : ∀ k, (source, k) ∈ found → k = 0
  parent : ∀ v k, (v, k) ∈ found → v = source ∨ ∃ u edge j, k = j + 1 ∧ (u, j) ∈ found ∧
    predecessor v = some (u, edge) ∧ step u edge v

variable {step : graph.NodeIndex → graph.EdgeIndex → graph.NodeIndex → Prop}
  {source : graph.NodeIndex} {predecessor : graph.Predecessors} {found : Found graph.NodeIndex}

section

variable (h : Parents step source predecessor found)
include h

theorem Parents.discover {u v : graph.NodeIndex}
    {edge : graph.EdgeIndex} (hu : (u, depth) ∈ found)
    (hnew : v ∉ found.map Prod.fst) (hsource : (source, 0) ∈ found) (hstep : step u edge v) :
    Parents step source (Function.update predecessor v (some (u, edge)))
      (found ++ [(v, depth + 1)]) := by
  have hne : v ≠ source := by
    rintro rfl
    exact hnew (mem_map_of_mem hsource)
  refine { source_depth := ?_, parent := ?_ }
  · intro k hmem
    rcases mem_append.mp hmem with hk | hk
    · exact h.source_depth k hk
    · cases mem_singleton.mp hk
      exact absurd rfl hne
  · intro w k hmem
    rcases mem_append.mp hmem with hk | hk
    · have hw : w ≠ v := by
        rintro rfl
        exact hnew (mem_map_of_mem hk)
      rw [Function.update_of_ne hw]
      rcases h.parent w k hk with hw | ⟨u', edge', j, hj, hmem, hrest⟩
      · exact .inl hw
      · exact .inr ⟨u', edge', j, hj, mem_append_left _ hmem, hrest⟩
    · cases mem_singleton.mp hk
      exact .inr ⟨u, edge, depth, rfl, mem_append_left _ hu, Function.update_self .., hstep⟩

/-- Every level above a found node has a found node. -/
theorem Parents.level :
    ∀ {v : graph.NodeIndex}, (v, k) ∈ found → ∀ j ≤ k, j ∈ found.map Prod.snd := by
  induction k with
  | zero =>
    intro v hv j hj
    rw [Nat.le_zero.mp hj]
    exact mem_map_of_mem hv
  | succ k ih =>
    intro v hv j hj
    rcases Nat.of_le_succ hj with hj | rfl
    · rcases h.parent v _ hv with rfl | ⟨u, _, i, hi, hu, _⟩
      · cases h.source_depth _ hv
      · cases hi
        exact ih hu j hj
    · exact mem_map_of_mem hv

theorem Parents.depth_lt
    (hnodup : (found.map Prod.fst).Nodup) {v : graph.NodeIndex} (hv : (v, k) ∈ found) :
    k < graph.nodeCount := by
  have hlevels : List.range (k + 1) ⊆ found.map Prod.snd := by
    intro j hj
    exact h.level hv j (Nat.lt_succ_iff.mp (mem_range.mp hj))
  have hlength := (nodup_range.subperm hlevels).length_le
  have hcard := hnodup.length_le_card
  rw [length_range, length_map] at hlength
  rw [length_map, Fintype.card_fin] at hcard
  exact lt_of_lt_of_le hlength hcard

/-- **Reading a path back** ends at the source, with a walk as long as the node is
deep. -/
theorem Parents.reconstructFrom :
    ∀ {v : graph.NodeIndex}, (v, k) ∈ found →
      ∃ path, Walk step source path v ∧ path.length = k ∧
        ∀ fuel nodes edges, k ≤ fuel →
          graph.reconstructFrom source predecessor fuel v (nodes ++ [v]) edges =
            some (.ok (.found ((source :: path.map Prod.snd ++ nodes.reverse).map graph.nodeId)
              (graph.walkEdges source path ++ edges.reverse))) := by
  induction k with
  | zero =>
    intro v hv
    rcases h.parent v 0 hv with rfl | ⟨_, _, _, hzero, _⟩
    · refine ⟨[], .nil, rfl, ?_⟩
      intro fuel nodes edges _
      unfold Graph.reconstructFrom
      rw [if_pos rfl, reverse_append]
      rfl
    · cases hzero
  | succ k ih =>
    intro v hv
    have hne : v ≠ source := by
      rintro rfl
      cases h.source_depth _ hv
    obtain ⟨u, edge, j, hj, hu, hpredecessor, hstep⟩ := (h.parent v _ hv).resolve_left hne
    cases hj
    obtain ⟨path, hwalk, hlength, hread⟩ := ih hu
    refine ⟨path ++ [(edge, v)], .snoc hwalk hstep, ?_, ?_⟩
    · rw [length_append, length_singleton, hlength]
    · intro fuel nodes edges hfuel
      obtain ⟨fuel, rfl⟩ : ∃ rest, fuel = rest + 1 := ⟨fuel - 1, by omega⟩
      unfold Graph.reconstructFrom
      rw [if_neg hne]
      simp only [hpredecessor]
      rw [hread fuel _ _ (by omega), walkEdges_snoc hwalk]
      simp

end

/-! ## §5. The queue loop. -/

/-- What the loop's variables hold when `found` was found. -/
structure PathOk (step : graph.NodeIndex → graph.EdgeIndex → graph.NodeIndex → Prop)
    (source target : graph.NodeIndex) (state : graph.PathState) (found : Found graph.NodeIndex) :
    Prop where
  visited : ∀ v, state.visited v = true ↔ v ∈ found.map Prod.fst
  parents : Parents step source state.predecessor found
  missing : target ∉ found.map Prod.fst

/-- The target was discovered at the least depth, within the bound. -/
def Arrived (step : graph.NodeIndex → graph.EdgeIndex → graph.NodeIndex → Prop)
    (source target : graph.NodeIndex) (bound : ℕ∞) (predecessor : graph.Predecessors) : Prop :=
  ∃ found k, Parents step source predecessor found ∧ (target, k) ∈ found ∧ (k : ℕ∞) ≤ bound ∧
    (found.map Prod.fst).Nodup ∧ ∀ j, ReachedIn step (· = source) j target → k ≤ j

variable (target) in
/-- All arcs of a node, or those up to the one that leads to the target. -/
theorem pathArcs_spec (hpath : step = graph.PathStep direction allowedLabels)
    {node : graph.NodeIndex} {done : Found graph.NodeIndex} {bound : ℕ∞} :
    ∀ (arcs : List graph.ArcRef) {state : graph.PathState},
      (∀ arc ∈ arcs, graph.Leads direction node arc.edge arc.neighbor) →
      Expanding step (· = source) bound node depth done state.queue
        (arcs.map fun arc => (arc.edge, arc.neighbor)) →
      PathOk step source target state (done ++ (node, depth) :: state.queue) →
      match graph.pathArcs target allowedLabels node depth arcs state with
      | .reached predecessor => Arrived step source target bound predecessor
      | .searched final => Expanding step (· = source) bound node depth done final.queue [] ∧
        PathOk step source target final (done ++ (node, depth) :: final.queue) := by
  intro arcs
  induction arcs with
  | nil => exact fun _ h hok => ⟨h, hok⟩
  | cons arc arcs ih =>
    intro state harcs h hok
    rw [forall_mem_cons] at harcs
    unfold pathArcs
    split_ifs with hskip htarget
    · refine ih harcs.2 (h.skip ?_) hok
      rw [hpath]
      rintro ⟨_, hlabel⟩
      rw [hlabel, Bool.not_true, Bool.or_false] at hskip
      exact (hok.visited _).mp hskip
    all_goals
      rw [Bool.or_eq_true, not_or, Bool.not_eq_true', Bool.not_eq_false, hok.visited] at hskip
      have hstep : step node arc.edge arc.neighbor := hpath ▸ ⟨harcs.1, hskip.2⟩
      have hnext := h.discover hstep hskip.1
      have hfound : done ++ (node, depth) :: (state.queue ++ [(arc.neighbor, depth + 1)]) =
          (done ++ (node, depth) :: state.queue) ++ [(arc.neighbor, depth + 1)] := by simp
      have hnode : (node, depth) ∈ done ++ (node, depth) :: state.queue := by simp
      have hparents := hok.parents.discover hnode hskip.1 (h.seeds source rfl) hstep
    · refine ⟨_, depth + 1, hparents, ?_, ?_, hfound ▸ hnext.nodup, ?_⟩
      · rw [htarget]
        exact mem_append_right _ mem_cons_self
      · exact (hnext.reached (arc.neighbor, depth + 1) (by simp)).2
      · -- a shorter walk would have found the target before
        intro j hj
        by_contra hshort
        obtain ⟨i, _, hmem⟩ := h.near (by omega) hj
        exact hok.missing (mem_map_of_mem hmem)
    · refine ih harcs.2 hnext ?_
      show PathOk _ source target _ (done ++ (node, depth) :: (state.queue ++ _))
      rw [hfound]
      refine { visited := ?_, parents := hparents, missing := ?_ }
      · exact update_visited hok.visited _ _
      · rw [map_append, mem_append, map_singleton, mem_singleton]
        exact fun hmem => hmem.elim hok.missing fun heq => htarget heq.symm

/-- **The queue loop** ends: with the target discovered at its least depth, or
without any walk to it within the bound. -/
theorem pathLoop_spec (hpath : step = graph.PathStep direction allowedLabels) (fuel : Nat) :
    ∀ {state : graph.PathState} {done : Found graph.NodeIndex},
    Levels step (· = source) (depthBound maxDepth) done state.queue →
    PathOk step source target state (done ++ state.queue) →
    graph.nodeCount ≤ done.length + fuel →
    (∃ predecessor, graph.pathLoop target direction allowedLabels maxDepth fuel state =
        some (some predecessor) ∧
      Arrived step source target (depthBound maxDepth) predecessor) ∨
    (graph.pathLoop target direction allowedLabels maxDepth fuel state = some none ∧
      ∀ k : ℕ, (k : ℕ∞) ≤ depthBound maxDepth → ¬ ReachedIn step (· = source) k target) := by
  -- an empty queue has found everything, and the target is not among it
  have hfinal : ∀ {state : graph.PathState} {done : Found graph.NodeIndex},
      Levels step (· = source) (depthBound maxDepth) done [] →
      PathOk step source target state (done ++ []) →
      ∀ k : ℕ, (k : ℕ∞) ≤ depthBound maxDepth → ¬ ReachedIn step (· = source) k target := by
    intro state done h hok k hk hreached
    obtain ⟨j, _, hmem⟩ := h.complete hk hreached
    exact hok.missing (mem_map_of_mem (mem_append_left _ hmem))
  induction fuel with
  | zero =>
    intro state done h hok hfuel
    have hempty : state.queue = [] :=
      eq_nil_of_card_le h.nodup (by rwa [Fintype.card_fin])
    rw [hempty] at h hok
    refine .inr ⟨?_, hfinal h hok⟩
    unfold pathLoop
    rw [hempty]
  | succ fuel ih =>
    intro state done h hok hfuel
    unfold pathLoop
    cases hqueue : state.queue with
    | nil =>
      rw [hqueue] at h hok
      exact .inr ⟨rfl, hfinal h hok⟩
    | cons entry queue =>
      obtain ⟨node, depth⟩ := entry
      rw [hqueue] at h hok
      have hnext : graph.nodeCount ≤ (done ++ [(node, depth)]).length + fuel := by
        rw [length_append, length_singleton]
        omega
      have hpopped : PathOk step source target
          { state with queue } (done ++ (node, depth) :: queue) :=
        { visited := hok.visited, parents := hok.parents, missing := hok.missing }
      simp only
      split_ifs with hstop
      · refine ih (h.pass fun hlt => absurd hlt (bound_le_depth hstop)) ?_ hnext
        rwa [← append_cons]
      · rw [Bool.not_eq_true] at hstop
        have htaken : Expanding step (· = source)
            (depthBound maxDepth) node depth done queue (graph.arcList node direction) :=
          h.take (depth_lt_bound hstop) fun e v hstep => by
            rw [hpath] at hstep
            exact mem_arcList hstep.1
        have hscan := pathArcs_spec target hpath (graph.arcs node direction)
          (fun arc harc => mem_arcs.mp harc) htaken hpopped
        revert hscan
        cases graph.pathArcs target allowedLabels node depth (graph.arcs node direction)
            { state with queue } with
        | reached predecessor => exact fun harrived => .inl ⟨predecessor, rfl, harrived⟩
        | searched final =>
          rintro ⟨hexpanded, hexpandedOk⟩
          refine ih hexpanded.finish ?_ hnext
          rwa [← append_cons]

theorem pathStart_ok (hne : source ≠ target) :
    PathOk step source target (graph.pathStart source) [(source, 0)] where
  visited := by
    simp [pathStart, update_true_iff]
  parents := {
    source_depth := fun k hk => congrArg Prod.snd (mem_singleton.mp hk)
    parent := fun v k hk => .inl (congrArg Prod.fst (mem_singleton.mp hk)) }
  missing := fun hmem => hne (mem_singleton.mp hmem).symm

/-- The target's arcs make a least walk to it. -/
theorem Arrived.reconstruct {bound : ℕ∞} (h : Arrived step source target bound predecessor) :
    ∃ path, Walk step source path target ∧ (path.length : ℕ∞) ≤ bound ∧
      (∀ other, Walk step source other target → path.length ≤ other.length) ∧
      ∀ fuel, graph.nodeCount ≤ fuel →
        graph.reconstructFrom source predecessor fuel target [target] [] =
          some (.ok (.found ((source :: path.map Prod.snd).map graph.nodeId)
            (graph.walkEdges source path))) := by
  obtain ⟨found, k, hparents, hmem, hbound, hnodup, hleast⟩ := h
  have hdepth := hparents.depth_lt hnodup hmem
  obtain ⟨path, hwalk, rfl, hread⟩ := hparents.reconstructFrom hmem
  refine ⟨path, hwalk, hbound, fun other hother => hleast _ ⟨source, other, rfl, hother, rfl⟩, ?_⟩
  intro fuel hfuel
  simpa using hread fuel [] [] (hdepth.le.trans hfuel)

/-! ## §6. What is returned. -/

/-- **Shortest paths.**  Where a walk within the bound leads to the target, the
path found is a least one; where none does, no path is found. -/
theorem shortestPath_least (graph : Graph Id EdgeId) (source target : graph.NodeIndex)
    (direction : TraversalDirection) (allowedLabels : List String) (maxDepth : Option Nat)
    {fuel : Nat} (hfuel : graph.nodeCount ≤ fuel) :
    (∃ path, graph.shortestPath (graph.nodeId source) (graph.nodeId target) direction allowedLabels
        maxDepth fuel = some (.ok (.found ((source :: path.map Prod.snd).map graph.nodeId)
          (graph.walkEdges source path))) ∧
      Walk (graph.PathStep direction allowedLabels) source path target ∧
      (path.length : ℕ∞) ≤ depthBound maxDepth ∧
      ∀ other, Walk (graph.PathStep direction allowedLabels) source other target →
        path.length ≤ other.length) ∨
    (graph.shortestPath (graph.nodeId source) (graph.nodeId target) direction allowedLabels
        maxDepth fuel = some (.ok .noPath) ∧
      ¬ ∃ path, Walk (graph.PathStep direction allowedLabels) source path target ∧
        (path.length : ℕ∞) ≤ depthBound maxDepth) := by
  unfold shortestPath
  simp only [nodeIndex_nodeId]
  split_ifs with hsame
  · subst hsame
    exact .inl ⟨[], rfl, .nil, by simp, fun _ _ => Nat.zero_le _⟩
  · have hlevels : Levels (graph.PathStep direction allowedLabels) (· = source)
        (depthBound maxDepth) [] (graph.pathStart source).queue :=
      Levels.start (List.nodup_singleton source) fun _ => List.mem_singleton.symm
    rcases pathLoop_spec rfl fuel hlevels (pathStart_ok hsame) (by simpa using hfuel) with
      ⟨predecessor, hloop, harrived⟩ | ⟨hloop, hnone⟩
    · obtain ⟨path, hwalk, hbound, hleast, hread⟩ := harrived.reconstruct
      rw [hloop]
      exact .inl ⟨path, hread fuel hfuel, hwalk, hbound, hleast⟩
    · rw [hloop]
      refine .inr ⟨rfl, ?_⟩
      rintro ⟨path, hwalk, hbound⟩
      exact hnone _ hbound ⟨source, path, rfl, hwalk, rfl⟩

theorem shortestPath_least_pairGraph :
    (∃ path, pairGraph.shortestPath 3 5 .out ["CALLS"] (some 1) 2 =
        some (.ok (.found (((0 : Fin 2) :: path.map Prod.snd).map pairGraph.nodeId)
          (pairGraph.walkEdges (0 : Fin 2) path))) ∧
      Walk (pairGraph.PathStep .out ["CALLS"]) (0 : Fin 2) path (1 : Fin 2) ∧
      (path.length : ℕ∞) ≤ depthBound (some 1) ∧
      ∀ other, Walk (pairGraph.PathStep .out ["CALLS"]) (0 : Fin 2) other (1 : Fin 2) →
        path.length ≤ other.length) ∨
    (pairGraph.shortestPath 3 5 .out ["CALLS"] (some 1) 2 = some (.ok .noPath) ∧
      ¬ ∃ path, Walk (pairGraph.PathStep .out ["CALLS"]) (0 : Fin 2) path (1 : Fin 2) ∧
        (path.length : ℕ∞) ≤ depthBound (some 1)) :=
  shortestPath_least pairGraph (0 : Fin 2) (1 : Fin 2) .out ["CALLS"] (some 1) (by decide)

end Graph

end HelixDb.GraphAlgorithms
