/-
  HelixDb.Lib.GraphSearch

  **SEARCHING A GRAPH**: walks, breadth-first levels and depth-first marks.

  A search is described by what it has found: `done` nodes whose arcs were all
  followed, and those still waiting.  The invariants are kept by the moves a
  search makes (take a node, pass over an arc, discover a node, finish a node),
  and say at the end what was found.  They do not mention a loop: any program
  that makes these moves can use them.

    • `Levels` — breadth-first: depths are least lengths of walks;
    • `Levels.found_iff`, `Expanding.near` — what was found at the end, and before
      it;
    • `Marks` — depth-first: every mark is reached, and what is done is closed.
-/
import Mathlib

namespace HelixDb.Lib

open List
open Prod (fst snd)

variable {α ε : Type}

/-! ## §1. Walks. -/

/-- A walk and the arcs and nodes after its start. -/
inductive Walk (step : α → ε → α → Prop) (start : α) : List (ε × α) → α → Prop
  | nil : Walk step start [] start
  | snoc {path : List (ε × α)} {u v : α} {e : ε} (walk : Walk step start path u)
      (arc : step u e v) : Walk step start (path ++ [(e, v)]) v

/-- A node a seed reaches by a walk of `k` arcs. -/
def ReachedIn (step : α → ε → α → Prop) (seed : α → Prop) (k : ℕ) (v : α) : Prop :=
  ∃ s path, seed s ∧ Walk step s path v ∧ path.length = k

variable {step : α → ε → α → Prop} {seed : α → Prop}

theorem reachedIn_zero {v : α} : ReachedIn step seed 0 v ↔ seed v := by
  constructor
  · rintro ⟨s, path, hs, hwalk, hlength⟩
    cases hwalk with
    | nil => exact hs
    | snoc walk arc => simp at hlength
  · exact fun hv => ⟨v, [], hv, .nil, rfl⟩

theorem reachedIn_succ {k : ℕ} {v : α} :
    ReachedIn step seed (k + 1) v ↔ ∃ u e, ReachedIn step seed k u ∧ step u e v := by
  constructor
  · rintro ⟨s, path, hs, hwalk, hlength⟩
    cases hwalk with
    | nil => simp at hlength
    | @snoc path u _ e walk arc =>
      rw [length_append] at hlength
      exact ⟨u, e, ⟨s, path, hs, walk, Nat.succ.inj hlength⟩, arc⟩
  · rintro ⟨u, e, ⟨s, path, hs, hwalk, hlength⟩, harc⟩
    refine ⟨s, path ++ [(e, v)], hs, .snoc hwalk harc, ?_⟩
    rw [length_append, length_singleton, hlength]

/-! ## §2. Breadth-first levels. -/

/-- Nodes with their depths. -/
abbrev Found (α : Type) := List (α × ℕ)

/-- Between two nodes of a breadth-first search: `done` nodes, then the queue. -/
structure Levels (step : α → ε → α → Prop) (seed : α → Prop) (bound : ℕ∞)
    (done queue : Found α) : Prop where
  nodup : ((done ++ queue).map fst).Nodup
  reached : ∀ x ∈ done ++ queue, ReachedIn step seed x.2 x.1 ∧ (x.2 : ℕ∞) ≤ bound
  seeds : ∀ s, seed s → (s, 0) ∈ done ++ queue
  closed : ∀ x ∈ done, (x.2 : ℕ∞) < bound → ∀ e v, step x.1 e v →
    ∃ k ≤ x.2 + 1, (v, k) ∈ done ++ queue
  sorted : (queue.map snd).Pairwise (· ≤ ·)
  spread : ∀ x ∈ queue.head?, ∀ y ∈ done ++ queue, y.2 ≤ x.2 + 1

/-- While the arcs of `u` are followed; `rest` are those still to be looked at. -/
structure Expanding (step : α → ε → α → Prop) (seed : α → Prop) (bound : ℕ∞) (u : α) (d : ℕ)
    (done queue : Found α) (rest : List (ε × α)) : Prop where
  nodup : ((done ++ (u, d) :: queue).map fst).Nodup
  reached : ∀ x ∈ done ++ (u, d) :: queue, ReachedIn step seed x.2 x.1 ∧ (x.2 : ℕ∞) ≤ bound
  seeds : ∀ s, seed s → (s, 0) ∈ done ++ (u, d) :: queue
  closed : ∀ x ∈ done, (x.2 : ℕ∞) < bound → ∀ e v, step x.1 e v →
    ∃ k ≤ x.2 + 1, (v, k) ∈ done ++ (u, d) :: queue
  current : ∀ e v, step u e v → (e, v) ∈ rest ∨
    ∃ k ≤ d + 1, (v, k) ∈ done ++ (u, d) :: queue
  sorted : (queue.map snd).Pairwise (· ≤ ·)
  above : ∀ y ∈ queue, d ≤ y.2
  below : ∀ y ∈ done ++ (u, d) :: queue, y.2 ≤ d + 1
  within : (d : ℕ∞) < bound

variable {bound : ℕ∞} {u : α} {d : ℕ} {done queue : Found α} {rest : List (ε × α)}

theorem map_fst_at (nodes : List α) (d : ℕ) :
    (nodes.map fun v => (v, d)).map fst = nodes := by
  simp [Function.comp_def]

/-- A search that is done with as many nodes as there are has none waiting. -/
theorem eq_nil_of_card_le [Fintype α] (hnodup : ((done ++ queue).map fst).Nodup)
    (hdone : Fintype.card α ≤ done.length) : queue = [] := by
  have hcard := hnodup.length_le_card
  rw [length_map, length_append] at hcard
  exact eq_nil_of_length_eq_zero (by omega)

section Visited

variable [DecidableEq α] {visited : α → Bool}

theorem update_true_iff {v : α} :
    Function.update visited u true v = true ↔ v = u ∨ visited v = true := by
  by_cases hv : v = u <;> simp [hv]

/-- The flags after one more node was found. -/
theorem update_visited (h : ∀ v, visited v = true ↔ v ∈ done.map fst) (u : α) (d : ℕ) (v : α) :
    Function.update visited u true v = true ↔ v ∈ (done ++ [(u, d)]).map fst := by
  rw [update_true_iff, h, map_append, mem_append, map_singleton, mem_singleton, or_comm]

end Visited

/-- The seeds are found at depth zero. -/
theorem Levels.start {seeds : List α} (hnodup : seeds.Nodup) (hseeds : ∀ s, seed s ↔ s ∈ seeds) :
    Levels step seed bound [] (seeds.map fun s => (s, 0)) where
  nodup := by rwa [nil_append, map_fst_at]
  reached := by
    intro x hx
    obtain ⟨s, hs, rfl⟩ := mem_map.mp hx
    exact ⟨reachedIn_zero.mpr ((hseeds s).mpr hs), by simp⟩
  seeds := fun s hs => mem_map_of_mem ((hseeds s).mp hs)
  closed := fun _ hx => nomatch hx
  sorted := by
    rw [map_map]
    show (seeds.map fun _ => 0).Pairwise (· ≤ ·)
    rw [map_const']
    exact pairwise_replicate.mpr (.inr le_rfl)
  spread := by
    intro x _ y hy
    obtain ⟨s, _, rfl⟩ := mem_map.mp hy
    exact Nat.zero_le _

section

variable (h : Levels step seed bound done ((u, d) :: queue))
include h

/-- **Take** a node whose arcs are to be followed. -/
theorem Levels.take
    (hwithin : (d : ℕ∞) < bound) (hrest : ∀ e v, step u e v → (e, v) ∈ rest) :
    Expanding step seed bound u d done queue rest where
  nodup := h.nodup
  reached := h.reached
  seeds := h.seeds
  closed := h.closed
  current := fun e v hstep => .inl (hrest e v hstep)
  sorted := (pairwise_cons.mp h.sorted).2
  above := fun y hy => (pairwise_cons.mp h.sorted).1 y.2 (mem_map_of_mem hy)
  below := h.spread (u, d) rfl
  within := hwithin

/-- What is left after a node is done. -/
theorem Levels.leave
    (hcurrent : (d : ℕ∞) < bound → ∀ e v, step u e v →
      ∃ k ≤ d + 1, (v, k) ∈ done ++ (u, d) :: queue) :
    Levels step seed bound (done ++ [(u, d)]) queue where
  nodup := append_cons done .. ▸ h.nodup
  reached := append_cons done .. ▸ h.reached
  seeds := append_cons done .. ▸ h.seeds
  closed := by
    rw [← append_cons]
    intro x hx hlt e v hstep
    rcases mem_append.mp hx with hx | hx
    · exact h.closed x hx hlt e v hstep
    · cases mem_singleton.mp hx
      exact hcurrent hlt e v hstep
  sorted := (pairwise_cons.mp h.sorted).2
  spread := by
    rw [← append_cons]
    intro x hx y hy
    have hd := (pairwise_cons.mp h.sorted).1 x.2 (mem_map_of_mem (mem_of_mem_head? hx))
    have hy := h.spread (u, d) rfl y hy
    omega

/-- A node whose arcs are not followed: it is too deep, or has none. -/
theorem Levels.pass
    (hnone : (d : ℕ∞) < bound → ∀ e v, ¬ step u e v) :
    Levels step seed bound (done ++ [(u, d)]) queue :=
  h.leave fun hlt e v hstep => absurd hstep (hnone hlt e v)

end

/-- All arcs of a node were followed. -/
theorem Expanding.finish (h : Expanding step seed bound u d done queue []) :
    Levels step seed bound (done ++ [(u, d)]) queue := by
  have hlevels : Levels step seed bound done ((u, d) :: queue) :=
    { h with
      sorted := pairwise_cons.mpr ⟨forall_mem_map.mpr h.above, h.sorted⟩
      spread := by
        rintro _ ⟨⟩
        exact h.below }
  exact hlevels.leave fun _ e v hstep => (h.current e v hstep).resolve_left not_mem_nil

/-- **Pass over** an arc that is not followed, or leads to a node found before. -/
theorem Expanding.skip {e : ε} {v : α}
    (h : Expanding step seed bound u d done queue ((e, v) :: rest))
    (hskip : step u e v → v ∈ (done ++ (u, d) :: queue).map fst) :
    Expanding step seed bound u d done queue rest := by
  refine { h with current := ?_ }
  intro e' v' hstep
  rcases h.current e' v' hstep with hmem | hfound
  · rcases mem_cons.mp hmem with heq | hmem
    · cases heq
      obtain ⟨x, hx, rfl⟩ := mem_map.mp (hskip hstep)
      exact .inr ⟨x.2, h.below x hx, hx⟩
    · exact .inl hmem
  · exact .inr hfound

/-- **Discover** a node. -/
theorem Expanding.discover {e : ε} {v : α}
    (h : Expanding step seed bound u d done queue ((e, v) :: rest)) (hstep : step u e v)
    (hnew : v ∉ (done ++ (u, d) :: queue).map fst) :
    Expanding step seed bound u d done (queue ++ [(v, d + 1)]) rest := by
  have hfound : done ++ (u, d) :: (queue ++ [(v, d + 1)]) =
      (done ++ (u, d) :: queue) ++ [(v, d + 1)] := by simp
  have hnext : ReachedIn step seed (d + 1) v ∧ ((d + 1 : ℕ) : ℕ∞) ≤ bound :=
    ⟨reachedIn_succ.mpr ⟨u, e, (h.reached (u, d) (by simp)).1, hstep⟩, by
      exact Order.add_one_le_of_lt h.within⟩
  refine {
    nodup := ?_
    reached := ?_
    seeds := ?_
    closed := ?_
    current := ?_
    sorted := ?_
    above := ?_
    below := ?_
    within := h.within }
  · rw [hfound, map_append]
    exact nodup_append.mpr ⟨h.nodup, nodup_singleton _, by
      intro a ha b hb
      rw [mem_singleton.mp hb]
      rintro rfl
      exact hnew ha⟩
  · rw [hfound]
    intro x hx
    rcases mem_append.mp hx with hx | hx
    · exact h.reached x hx
    · cases mem_singleton.mp hx
      exact hnext
  · rw [hfound]
    exact fun s hs => mem_append_left _ (h.seeds s hs)
  · rw [hfound]
    intro x hx hlt e' v' hstep'
    obtain ⟨k, hk, hmem⟩ := h.closed x hx hlt e' v' hstep'
    exact ⟨k, hk, mem_append_left _ hmem⟩
  · rw [hfound]
    intro e' v' hstep'
    rcases h.current e' v' hstep' with hmem | ⟨k, hk, hmem⟩
    · rcases mem_cons.mp hmem with heq | hmem
      · cases heq
        exact .inr ⟨d + 1, le_rfl, mem_append_right _ mem_cons_self⟩
      · exact .inl hmem
    · exact .inr ⟨k, hk, mem_append_left _ hmem⟩
  · rw [map_append, pairwise_append]
    refine ⟨h.sorted, pairwise_singleton _ _, ?_⟩
    intro a ha b hb
    rw [mem_singleton.mp hb]
    obtain ⟨y, hy, rfl⟩ := mem_map.mp ha
    exact h.below y (mem_append_right _ (mem_cons_of_mem _ hy))
  · intro y hy
    rcases mem_append.mp hy with hy | hy
    · exact h.above y hy
    · cases mem_singleton.mp hy
      exact Nat.le_succ d
  · rw [hfound]
    intro y hy
    rcases mem_append.mp hy with hy | hy
    · exact h.below y hy
    · cases mem_singleton.mp hy
      exact le_rfl

/-- **Before the end**: whatever a walk of at most `d` arcs reaches was found. -/
theorem Expanding.near (h : Expanding step seed bound u d done queue rest) {k : ℕ} :
    ∀ {v : α}, k ≤ d → ReachedIn step seed k v →
      ∃ j ≤ k, (v, j) ∈ done ++ (u, d) :: queue := by
  induction k with
  | zero => exact fun _ hv => ⟨0, le_rfl, h.seeds _ (reachedIn_zero.mp hv)⟩
  | succ k ih =>
    intro v hk hv
    obtain ⟨w, e, hw, hstep⟩ := reachedIn_succ.mp hv
    obtain ⟨j, hj, hmem⟩ := ih (by omega) hw
    -- a node nearer than `d` is done, so its arcs were followed
    have hdone : (w, j) ∈ done := by
      rcases mem_append.mp hmem with hmem | hmem
      · exact hmem
      · rcases mem_cons.mp hmem with heq | hmem
        · cases heq
          omega
        · have hle := h.above _ hmem
          omega
    have hlt : ((j : ℕ) : ℕ∞) < bound := lt_of_le_of_lt (by exact_mod_cast (by omega : j ≤ d)) h.within
    obtain ⟨i, hi, hmem⟩ := h.closed (w, j) hdone hlt e v hstep
    exact ⟨i, by simp only at hi; omega, hmem⟩

/-- **At the end**: whatever a walk within the bound reaches was found, no deeper
than the walk is long. -/
theorem Levels.complete (h : Levels step seed bound done []) {k : ℕ} :
    ∀ {v : α}, (k : ℕ∞) ≤ bound → ReachedIn step seed k v → ∃ j ≤ k, (v, j) ∈ done := by
  induction k with
  | zero =>
    intro v _ hv
    have hmem := h.seeds v (reachedIn_zero.mp hv)
    rw [append_nil] at hmem
    exact ⟨0, le_rfl, hmem⟩
  | succ k ih =>
    intro v hk hv
    obtain ⟨w, e, hw, hstep⟩ := reachedIn_succ.mp hv
    have hlt : (k : ℕ∞) < bound := lt_of_lt_of_le (by exact_mod_cast Nat.lt_succ_self k) hk
    obtain ⟨j, hj, hmem⟩ := ih hlt.le hw
    obtain ⟨i, hi, hmem⟩ := h.closed (w, j) hmem
      (lt_of_le_of_lt (by exact_mod_cast hj) hlt) e v hstep
    rw [append_nil] at hmem
    exact ⟨i, by simp only at hi; omega, hmem⟩

/-- **What a breadth-first search finds**: every node within the bound, at the
least length of a walk. -/
theorem Levels.found_iff (h : Levels step seed bound done []) {v : α} {k : ℕ} :
    (v, k) ∈ done ↔ ReachedIn step seed k v ∧ (k : ℕ∞) ≤ bound ∧
      ∀ j, ReachedIn step seed j v → k ≤ j := by
  have hreached := h.reached
  have hnodup := h.nodup
  rw [append_nil] at hreached hnodup
  constructor
  · intro hmem
    obtain ⟨hv, hk⟩ := hreached _ hmem
    refine ⟨hv, hk, ?_⟩
    intro j hj
    by_contra hlt
    rw [not_le] at hlt
    obtain ⟨i, hi, hfound⟩ := h.complete ((Nat.cast_le.mpr hlt.le).trans hk) hj
    -- the same node is not found at two depths
    have hsame := inj_on_of_nodup_map hnodup hmem hfound rfl
    cases hsame
    omega
  · rintro ⟨hv, hk, hleast⟩
    obtain ⟨j, hj, hmem⟩ := h.complete hk hv
    have hle := hleast j (hreached _ hmem).1
    obtain rfl : j = k := le_antisymm hj hle
    exact hmem

/-! ## §3. Depth-first marks. -/

/-- Between two nodes of a depth-first search that marks what it pushes. -/
structure Marks (step : α → ε → α → Prop) (seed : α → Prop) (bound : ℕ∞) (done stack : Found α) :
    Prop where
  nodup : ((done ++ stack).map fst).Nodup
  reached : ∀ x ∈ done ++ stack, ReachedIn step seed x.2 x.1 ∧ (x.2 : ℕ∞) ≤ bound
  seeds : ∀ s, seed s → s ∈ (done ++ stack).map fst
  closed : ∀ x ∈ done, (x.2 : ℕ∞) < bound → ∀ e v, step x.1 e v →
    v ∈ (done ++ stack).map fst
  counted : ∀ x ∈ done ++ stack, x.2 < (done ++ stack).length

variable {stack : Found α}

theorem Marks.start {seeds : List α} (hnodup : seeds.Nodup) (hseeds : ∀ s, seed s ↔ s ∈ seeds) :
    Marks step seed bound [] (seeds.map fun s => (s, 0)) where
  nodup := by rwa [nil_append, map_fst_at]
  reached := by
    intro x hx
    obtain ⟨s, hs, rfl⟩ := mem_map.mp hx
    exact ⟨reachedIn_zero.mpr ((hseeds s).mpr hs), by simp⟩
  seeds := fun s hs =>
    mem_map.mpr ⟨(s, 0), mem_map_of_mem ((hseeds s).mp hs), rfl⟩
  closed := fun _ hx => nomatch hx
  counted := by
    intro x hx
    have hpos := length_pos_of_mem hx
    obtain ⟨s, _, rfl⟩ := mem_map.mp hx
    exact hpos

/-- **Take** a node, and push the nodes it discovers: none, if it is too deep. -/
theorem Marks.take (h : Marks step seed bound done ((u, d) :: stack)) {fresh : List α}
    (hnodup : fresh.Nodup) (hnew : ∀ v ∈ fresh, v ∉ (done ++ (u, d) :: stack).map fst)
    (hstep : ∀ v ∈ fresh, (d : ℕ∞) < bound ∧ ∃ e, step u e v)
    (hall : (d : ℕ∞) < bound → ∀ e v, step u e v →
      v ∈ fresh ∨ v ∈ (done ++ (u, d) :: stack).map fst) :
    Marks step seed bound (done ++ [(u, d)]) ((fresh.map fun v => (v, d + 1)) ++ stack) := by
  have hperm : ((done ++ [(u, d)]) ++ ((fresh.map fun v => (v, d + 1)) ++ stack)).Perm
      ((done ++ (u, d) :: stack) ++ fresh.map fun v => (v, d + 1)) := by
    rw [append_assoc, append_assoc, singleton_append]
    exact ((perm_append_comm).cons _).append_left _
  have hmem : ∀ v, v ∈ ((done ++ [(u, d)]) ++ ((fresh.map fun v => (v, d + 1)) ++ stack)).map
      fst ↔ v ∈ (done ++ (u, d) :: stack).map fst ∨ v ∈ fresh := by
    intro v
    rw [(hperm.map fst).mem_iff, map_append, mem_append, map_fst_at]
  refine {
    nodup := ?_
    reached := ?_
    seeds := fun s hs => (hmem s).mpr (.inl (h.seeds s hs))
    closed := ?_
    counted := ?_ }
  · rw [(hperm.map fst).nodup_iff, map_append, map_fst_at]
    refine nodup_append.mpr ⟨h.nodup, hnodup, ?_⟩
    intro a ha b hb
    rintro rfl
    exact hnew a hb ha
  · intro x hx
    rcases mem_append.mp (hperm.mem_iff.mp hx) with hx | hx
    · exact h.reached x hx
    · obtain ⟨v, hv, rfl⟩ := mem_map.mp hx
      obtain ⟨hwithin, e, harc⟩ := hstep v hv
      refine ⟨reachedIn_succ.mpr ⟨u, e, (h.reached (u, d) (by simp)).1, harc⟩, ?_⟩
      exact Order.add_one_le_of_lt hwithin
  · intro x hx hlt e v harc
    rw [hmem]
    rcases mem_append.mp hx with hx | hx
    · exact .inl (h.closed x hx hlt e v harc)
    · cases mem_singleton.mp hx
      exact (hall hlt e v harc).symm
  · intro x hx
    rw [hperm.length_eq, length_append, length_map]
    rcases mem_append.mp (hperm.mem_iff.mp hx) with hx | hx
    · exact (h.counted x hx).trans_le (Nat.le_add_right _ _)
    · -- a new mark makes room for one more level
      have hpos := length_pos_of_mem hx
      have hd := h.counted (u, d) (by simp)
      obtain ⟨v, _, rfl⟩ := mem_map.mp hx
      rw [length_map] at hpos
      omega

/-- **With room for every node**, whatever a walk reaches was found. -/
theorem Marks.complete [Fintype α] (h : Marks step seed bound done [])
    (hbound : (Fintype.card α : ℕ∞) ≤ bound) {k : ℕ} :
    ∀ {v : α}, ReachedIn step seed k v → v ∈ done.map fst := by
  have hroom : ∀ x ∈ done, (x.2 : ℕ∞) < bound := by
    intro x hx
    have hcount := h.counted x (by rwa [append_nil])
    have hcard := h.nodup.length_le_card
    rw [length_map] at hcard
    exact lt_of_lt_of_le (by exact_mod_cast hcount.trans_le hcard) hbound
  induction k with
  | zero =>
    intro v hv
    have hmem := h.seeds v (reachedIn_zero.mp hv)
    rwa [append_nil] at hmem
  | succ k ih =>
    intro v hv
    obtain ⟨w, e, hw, harc⟩ := reachedIn_succ.mp hv
    obtain ⟨x, hx, rfl⟩ := mem_map.mp (ih hw)
    have hmem := h.closed x hx (hroom x hx) e v harc
    rwa [append_nil] at hmem

end HelixDb.Lib
