/-
  HelixDb.Lib.FoldM

  **LOOPS THAT CAN FAIL**: invariant rules for a fold in `Except`, over the part
  of the list already visited.

    • `foldlM_invariant` — what every successful step keeps holds when the loop
      succeeds;
    • `foldlM_total` — steps that succeed under the invariant make the whole
      loop succeed;
    • `mapM_total`, `mapM_ok` — elementwise computations;
    • `collectM_eq_flatMap` — elementwise computations that list results;
    • `foldlM_eq_collectM` — a loop that feeds such results to a plain fold.
-/
import Mathlib

namespace HelixDb.Lib

open List

variable {σ α ε : Type}

theorem except_bind_ok {x : Except ε σ} {f : σ → Except ε α} {r : α} (h : (x >>= f) = .ok r) :
    ∃ a, x = .ok a ∧ f a = .ok r := by
  cases x with
  | error e => cases h
  | ok a => exact ⟨a, rfl, h⟩

theorem except_bind_eq_ok {x : Except ε σ} {f : σ → Except ε α} {r : α} :
    (x >>= f) = .ok r ↔ ∃ a, x = .ok a ∧ f a = .ok r := by
  refine ⟨except_bind_ok, ?_⟩
  rintro ⟨a, rfl, h⟩
  exact h

theorem except_map_ok {x : Except ε σ} {f : σ → α} {r : α} (h : x.map f = .ok r) :
    ∃ a, x = .ok a ∧ f a = r := by
  cases x with
  | error e => cases h
  | ok a => exact ⟨a, rfl, Except.ok.inj h⟩

variable {f : σ → α → Except ε σ}

variable {xs : List α}

/-- A key after the visited part `done` is new when the keys are distinct. -/
theorem notMem_of_nodup {κ : Type} {key : α → κ} {done rest : List α} {a : α}
    (h : (xs.map key).Nodup) (hxs : xs = done ++ a :: rest) : key a ∉ done.map key := by
  rw [hxs, map_append, map_cons, nodup_append] at h
  intro hmem
  exact h.2.2 (key a) hmem (key a) mem_cons_self rfl

/-- **Partial correctness of a loop**: its state is read off the visited part `done`. -/
theorem foldlM_invariant (Inv : List α → σ → Prop) {s final : σ} (hstart : Inv [] s)
    (hstep : ∀ {done a rest s s'}, xs = done ++ a :: rest → Inv done s → f s a = .ok s' →
      Inv (done ++ [a]) s') (h : xs.foldlM f s = .ok final) : Inv xs final := by
  induction xs using reverseRecOn generalizing final with
  | nil =>
    cases h
    exact hstart
  | append_singleton xs a ih =>
    rw [foldlM_append] at h
    obtain ⟨s', hs', hlast⟩ := except_bind_ok h
    have hinv := ih (fun hxs => hstep (by rw [hxs, append_assoc]; rfl)) hs'
    exact hstep rfl hinv (by simpa using hlast)

/-- A property of the state that every step keeps. -/
theorem foldlM_preserves (P : σ → Prop) {s final : σ} (hstart : P s)
    (hstep : ∀ {a s s'}, P s → f s a = .ok s' → P s') (h : xs.foldlM f s = .ok final) : P final :=
  foldlM_invariant (fun _ => P) hstart (fun _ => hstep) h

/-- **Total correctness of a loop.** -/
theorem foldlM_total (Inv : List α → σ → Prop) {s : σ} (hstart : Inv [] s)
    (hstep : ∀ {done a rest s}, xs = done ++ a :: rest → Inv done s →
      ∃ s', f s a = .ok s' ∧ Inv (done ++ [a]) s') :
    ∃ final, xs.foldlM f s = .ok final ∧ Inv xs final := by
  induction xs using reverseRecOn with
  | nil => exact ⟨s, rfl, hstart⟩
  | append_singleton xs a ih =>
    obtain ⟨s', hs', hinv⟩ := ih fun hxs => hstep (by rw [hxs, append_assoc]; rfl)
    obtain ⟨final, hfinal, hlast⟩ := hstep rfl hinv
    refine ⟨final, ?_, hlast⟩
    rw [foldlM_append, hs', ← hfinal]
    exact bind_pure (f s' a)

variable {β γ : Type}

/-- An elementwise computation that succeeds on every element. -/
theorem mapM_total {f : α → Except ε β} (h : ∀ x ∈ xs, ∃ y, f x = .ok y) :
    ∃ ys, xs.mapM f = .ok ys ∧ List.Forall₂ (fun x y => f x = .ok y) xs ys := by
  induction xs with
  | nil => exact ⟨[], rfl, .nil⟩
  | cons x rest ih =>
    obtain ⟨y, hy⟩ := h x mem_cons_self
    obtain ⟨ys, hys, hall⟩ := ih fun x' hx' => h x' (mem_cons_of_mem x hx')
    refine ⟨y :: ys, ?_, .cons hy hall⟩
    rw [mapM_cons, hy, hys]
    rfl

theorem mapM_eq_map {f : α → Except ε β} {g : α → β}
    (h : ∀ x ∈ xs, f x = .ok (g x)) : xs.mapM f = .ok (xs.map g) := by
  induction xs with
  | nil => rfl
  | cons x xs ih =>
    rw [forall_mem_cons] at h
    rw [mapM_cons, h.1, ih h.2]
    rfl

theorem mapM_ok {f : α → Except ε β} :
    ∀ {ys : List β}, xs.mapM f = .ok ys → List.Forall₂ (fun x y => f x = .ok y) xs ys := by
  induction xs with
  | nil =>
    intro ys h
    cases h
    exact .nil
  | cons x rest ih =>
    intro ys h
    rw [mapM_cons] at h
    obtain ⟨y, hy, h⟩ := except_bind_ok h
    obtain ⟨ys', hys', h⟩ := except_bind_ok h
    cases h
    exact .cons hy (ih hys')

/-- Every result comes from an element. -/
theorem exists_of_mem_mapM {f : α → Except ε β} {ys : List β} {y : β}
    (h : xs.mapM f = .ok ys) (hy : y ∈ ys) : ∃ x ∈ xs, f x = .ok y := by
  have hall := mapM_ok h
  clear h
  induction hall with
  | nil => cases hy
  | @cons x y' rest ys hx _ ih =>
    rcases mem_cons.mp hy with rfl | hy
    · exact ⟨x, mem_cons_self, hx⟩
    · obtain ⟨x', hx', hfx'⟩ := ih hy
      exact ⟨x', mem_cons_of_mem x hx', hfx'⟩

/-! Computations that list results, element by element. -/

/-- All results, in order; the first failure fails. -/
def collectM {β : Type} (f : α → Except ε (List β)) (xs : List α) : Except ε (List β) := do
  let parts ← xs.mapM f
  pure parts.flatten

section Collect

variable {β : Type} {f : α → Except ε (List β)}

@[simp]
theorem collectM_nil : collectM f [] = .ok [] := rfl

theorem collectM_cons (x : α) (xs : List α) :
    collectM f (x :: xs) = (do
      let first ← f x
      let rest ← collectM f xs
      pure (first ++ rest)) := by
  unfold collectM
  rw [mapM_cons]
  cases f x with
  | error e => rfl
  | ok first =>
    show ((xs.mapM f >>= fun parts => pure (first :: parts)) >>= _) = _
    cases xs.mapM f <;> rfl

/-- On a list where nothing fails, the results are those of a plain function. -/
theorem collectM_eq_flatMap {g : α → List β} {xs : List α} (h : ∀ x ∈ xs, f x = .ok (g x)) :
    collectM f xs = .ok (xs.flatMap g) := by
  induction xs with
  | nil => rfl
  | cons x xs ih =>
    rw [forall_mem_cons] at h
    rw [collectM_cons, h.1, ih h.2]
    rfl

theorem collectM_append (xs ys : List α) :
    collectM f (xs ++ ys) = (do
      let first ← collectM f xs
      let rest ← collectM f ys
      pure (first ++ rest)) := by
  induction xs with
  | nil =>
    rw [nil_append, collectM_nil]
    show _ = (collectM f ys >>= fun rest => pure rest)
    rw [bind_pure]
  | cons x xs ih =>
    rw [cons_append, collectM_cons, collectM_cons, ih]
    simp only [bind_assoc, pure_bind, append_assoc]

theorem collectM_flatten (xss : List (List α)) :
    collectM f xss.flatten = collectM (collectM f) xss := by
  induction xss with
  | nil => rfl
  | cons xs xss ih => rw [flatten_cons, collectM_append, collectM_cons, ih]

/-- Whether it succeeds depends on the successes of the elements only. -/
theorem collectM_congr_ok {g : α → Except ε (List β)} {xs : List α}
    (h : ∀ x ∈ xs, ∀ part, f x = .ok part ↔ g x = .ok part) :
    ∀ ys, collectM f xs = .ok ys ↔ collectM g xs = .ok ys := by
  induction xs with
  | nil => exact fun _ => Iff.rfl
  | cons x xs ih =>
    intro ys
    rw [forall_mem_cons] at h
    simp only [collectM_cons, except_bind_eq_ok, h.1, ih h.2]

/-- A plain function of the results. -/
theorem collectM_map (g : β → γ) (xs : List α) :
    collectM (fun x => f x >>= fun part => pure (part.map g)) xs =
      (collectM f xs >>= fun ys => pure (ys.map g)) := by
  induction xs with
  | nil => rfl
  | cons x xs ih =>
    rw [collectM_cons, collectM_cons, ih]
    simp

theorem collectM_singleton (x : α) : collectM f [x] = f x := by
  rw [collectM_cons, collectM_nil]
  show (f x >>= fun first => pure (first ++ [])) = f x
  simp

/-- A plain elementwise computation lists one result for each element. -/
theorem mapM_eq_collectM {g : α → Except ε β} (xs : List α) :
    xs.mapM g = collectM (fun x => g x >>= fun y => pure [y]) xs := by
  induction xs with
  | nil => rfl
  | cons x xs ih =>
    rw [mapM_cons, collectM_cons, ih]
    simp

/-- Two passes succeed exactly where one pass does; they may fail elsewhere. -/
theorem collectM_bind_collectM_ok {g : γ → Except ε (List α)} (xs : List γ) :
    ∀ ys, (collectM g xs >>= collectM f) = .ok ys ↔
      collectM (fun x => g x >>= collectM f) xs = .ok ys := by
  induction xs with
  | nil => exact fun _ => Iff.rfl
  | cons x xs ih =>
    intro ys
    rw [collectM_cons, collectM_cons]
    constructor
    · intro h
      obtain ⟨_, hlisted, h⟩ := except_bind_ok h
      obtain ⟨first, hfirst, hlisted⟩ := except_bind_ok hlisted
      obtain ⟨rest, hrest, hlisted⟩ := except_bind_ok hlisted
      cases hlisted
      rw [collectM_append] at h
      obtain ⟨part, hpart, h⟩ := except_bind_ok h
      obtain ⟨others, hothers, h⟩ := except_bind_ok h
      have htail := (ih others).mp (except_bind_eq_ok.mpr ⟨rest, hrest, hothers⟩)
      exact except_bind_eq_ok.mpr ⟨part, except_bind_eq_ok.mpr ⟨first, hfirst, hpart⟩,
        except_bind_eq_ok.mpr ⟨others, htail, h⟩⟩
    · intro h
      obtain ⟨part, hpart, h⟩ := except_bind_ok h
      obtain ⟨others, hothers, h⟩ := except_bind_ok h
      obtain ⟨first, hfirst, hpart⟩ := except_bind_ok hpart
      obtain ⟨rest, hrest, htail⟩ := except_bind_ok ((ih others).mpr hothers)
      refine except_bind_eq_ok.mpr ⟨first ++ rest, ?_, ?_⟩
      · rw [hfirst, hrest]
        rfl
      · rwa [collectM_append, hpart, htail]

/-- At most one result for every element. -/
theorem collectM_length (h : ∀ x part, f x = .ok part → part.length ≤ 1) {xs : List α} :
    ∀ {ys : List β}, collectM f xs = .ok ys → ys.length ≤ xs.length := by
  induction xs with
  | nil =>
    intro ys hys
    cases hys
    exact le_rfl
  | cons x xs ih =>
    intro ys hys
    rw [collectM_cons] at hys
    obtain ⟨first, hfirst, hys⟩ := except_bind_ok hys
    obtain ⟨rest, hrest, hys⟩ := except_bind_ok hys
    cases hys
    have hone := h x first hfirst
    have hlength := ih hrest
    rw [length_append, length_cons]
    omega

/-- A loop that feeds the results of every element to a plain fold. -/
theorem foldlM_eq_collectM {step : σ → α → Except ε σ} {push : σ → β → σ}
    (h : ∀ s x, step s x = (f x >>= fun ys => pure (ys.foldl push s))) (xs : List α) :
    ∀ s, xs.foldlM step s = (collectM f xs >>= fun ys => pure (ys.foldl push s)) := by
  induction xs with
  | nil => exact fun _ => rfl
  | cons x xs ih =>
    intro s
    rw [foldlM_cons, h, collectM_cons]
    simp [ih]

end Collect

end HelixDb.Lib
