/-
  HelixDb.Planner.Prune

  **STATIC PRUNING** of a predicate before a plan is built.

  A junction prunes its children from left to right.  A decided child that
  decides the junction ends it, the other decided children are dropped, and a
  child that prunes to a conjunction joins its parent conjunction.  What is left
  is checked against the static analyses and carries its label scope.

    • `pruneBorrowed_agrees` — the outcome agrees with the evaluator on every row
      it does not fail on.
-/
import HelixDb.Planner.LabelScope
import HelixDb.Planner.StaticImpossible

namespace HelixDb.Planner

open HelixDb.Lib Predicate

/-! ## §1. The pass. -/

/-- Trees are borrowed where nothing changed; only their value is modelled. -/
inductive PrunedPredicate where
  | impossible
  | tautology
  | feasible (predicate : Predicate) (label : FeasibleLabelScope)

/-- The two connectives. -/
inductive Junction where
  | and
  | or
deriving DecidableEq

namespace Junction

/-- The truth value of the junction of no children. -/
def all : Junction → Bool
  | .and => true
  | .or => false

/-- The connective as a predicate. -/
def predicate : Junction → List Predicate → Predicate
  | .and => .and
  | .or => .or

/-- The junction of children that all were dropped. -/
def ofNone : Junction → PrunedPredicate
  | .and => .tautology
  | .or => .impossible

/-- The child outcome that decides the junction. -/
def decided : Junction → PrunedPredicate
  | .and => .impossible
  | .or => .tautology

/-- What a kept child adds: a conjunction joins its parent conjunction. -/
def joined : Junction → Predicate → List Predicate
  | .and, .and predicates => predicates
  | _, predicate => [predicate]

end Junction

/-- A predicate that is kept, with its labels. -/
def feasiblePrunedPredicate (predicate : Predicate) : Except PlannerError PrunedPredicate := do
  match ← labelScope predicate with
  | .impossible => pure .impossible
  | .feasible label => pure (.feasible predicate label)

/-- True whatever the row. -/
def predicateIsStaticallyTautological (predicate : Predicate) : Bool :=
  staticPredicateValue predicate == some true

/-- The checks of a predicate without children. -/
def checkedPrunedPredicate (predicate : Predicate) : Except PlannerError PrunedPredicate :=
  if predicateIsStaticallyTautological predicate then pure .tautology
  else if predicateIsStaticallyImpossible predicate then pure .impossible
  else do
    match ← labelScope predicate with
    | .impossible => pure .impossible
    | .feasible _ => feasiblePrunedPredicate predicate

/-- The end of `prune_junction`: none, one or several children are left. -/
def Junction.rebuild (junction : Junction) : List Predicate → Except PlannerError PrunedPredicate
  | [] => pure junction.ofNone
  | [child] => feasiblePrunedPredicate child
  | children => checkedPrunedPredicate (junction.predicate children)

mutual

/-- `prune_borrowed`. -/
def pruneBorrowed : Predicate → Except PlannerError PrunedPredicate
  | .and (child :: children) => do
    match ← pruneChildren .and (child :: children) with
    | some kept => Junction.and.rebuild kept
    | none => pure Junction.and.decided
  | .or (child :: children) => do
    match ← pruneChildren .or (child :: children) with
    | some kept => Junction.or.rebuild kept
    | none => pure Junction.or.decided
  | predicate => checkedPrunedPredicate predicate

/-- The loop of `prune_junction`; `none` is its early return. -/
def pruneChildren (junction : Junction) :
    List Predicate → Except PlannerError (Option (List Predicate))
  | [] => pure (some [])
  | child :: children => do
    match junction, ← pruneBorrowed child with
    | .and, .impossible => pure none
    | .or, .tautology => pure none
    | _, .feasible predicate _ => do
      let kept ← pruneChildren junction children
      pure (kept.map (junction.joined predicate ++ ·))
    | _, _ => pruneChildren junction children

end

/-! ## §2. Agreement with the evaluator. -/

variable {pruned : PrunedPredicate}

section Agrees

variable {ε : Type} {row : Row ε}

/-- What an outcome says when the evaluator answers `v` on a row. -/
def PrunedPredicate.Agrees (row : Row ε) (v : Bool) : PrunedPredicate → Prop
  | .impossible => v = false
  | .tautology => v = true
  | .feasible predicate label => predicate.eval row = .ok v ∧ (v = true → label.Holds row)

variable {predicate : Predicate}

theorem feasiblePrunedPredicate_agrees
    {v : Bool} (h : feasiblePrunedPredicate predicate = .ok pruned)
    (heval : predicate.eval row = .ok v) : pruned.Agrees row v := by
  obtain ⟨scope, hscope, h⟩ := except_bind_ok h
  cases scope with
  | impossible =>
    cases h
    show v = false
    cases v with
    | false => rfl
    | true => exact (labelScope_sound hscope heval).elim
  | feasible label =>
    cases h
    refine ⟨heval, ?_⟩
    rintro rfl
    exact labelScope_sound hscope heval

theorem checkedPrunedPredicate_agrees {v : Bool} (h : checkedPrunedPredicate predicate = .ok pruned)
    (heval : predicate.eval row = .ok v) : pruned.Agrees row v := by
  unfold checkedPrunedPredicate at h
  split at h
  next hstatic =>
    cases h
    exact eval_of_staticPredicateValue (beq_iff_eq.mp hstatic) heval
  split at h
  next himpossible =>
    cases h
    exact eval_of_staticallyImpossible himpossible heval
  next =>
    obtain ⟨scope, hscope, h⟩ := except_bind_ok h
    cases scope with
    | impossible =>
      cases h
      show v = false
      cases v with
      | false => rfl
      | true => exact (labelScope_sound hscope heval).elim
    | feasible _ => exact feasiblePrunedPredicate_agrees h heval

/-! ## §3. Junctions. -/

theorem evalJunction_singleton {all v : Bool} :
    evalJunction row all [predicate] = .ok v ↔ predicate.eval row = .ok v := by
  rw [evalJunction_cons, evalJunction]
  cases all <;> cases v <;> simp [pure, Except.pure]

/-- A first part that keeps the default hands over to the rest. -/
theorem evalJunction_append {all w v : Bool} {first rest : List Predicate}
    (hfirst : evalJunction row all first = .ok w)
    (hrest : w = all → evalJunction row all rest = .ok v) (hv : w ≠ all → v = w) :
    evalJunction row all (first ++ rest) = .ok v := by
  induction first with
  | nil =>
    cases hfirst
    exact hrest rfl
  | cons predicate first ih =>
    rw [List.cons_append, evalJunction_cons]
    rcases evalJunction_cons.mp hfirst with ⟨hp, hw⟩ | ⟨hp, hfirst⟩
    · exact .inl ⟨hp, by rw [hv (by simp [hw]), hw]⟩
    · exact .inr ⟨hp, ih hfirst⟩

theorem Junction.evalJunction_joined (junction : Junction) {v : Bool}
    (heval : predicate.eval row = .ok v) :
    evalJunction row junction.all (junction.joined predicate) = .ok v := by
  unfold Junction.joined
  split
  next => rwa [Predicate.eval] at heval
  next => exact evalJunction_singleton.mpr heval

variable {junction : Junction}

theorem Junction.rebuild_agrees {kept : List Predicate} {v : Bool} (h : junction.rebuild kept = .ok pruned)
    (heval : evalJunction row junction.all kept = .ok v) : pruned.Agrees row v := by
  unfold Junction.rebuild at h
  split at h
  next =>
    cases h
    cases heval
    cases junction <;> rfl
  next => exact feasiblePrunedPredicate_agrees h (evalJunction_singleton.mp heval)
  next =>
    refine checkedPrunedPredicate_agrees h ?_
    cases junction <;> rw [Junction.predicate] <;> exact heval

/-- How the pruned children stand for the children on a row where the junction is `v`. -/
def Junction.ChildrenAgree (row : Row ε) (junction : Junction) (v : Bool) :
    Option (List Predicate) → Prop
  | some kept => Predicate.evalJunction row junction.all kept = .ok v
  | none => v = !junction.all

theorem Junction.ofNone_agrees {v : Bool} : junction.ofNone.Agrees row v ↔ v = junction.all := by
  cases junction <;> exact Iff.rfl

theorem Junction.decided_agrees {v : Bool} : junction.decided.Agrees row v ↔ v = !junction.all := by
  cases junction <;> exact Iff.rfl

/-- One turn of the loop: the child decides, is dropped, or is kept. -/
theorem pruneChildren_cons {child : Predicate} {children : List Predicate}
    {kept : Option (List Predicate)} (h : pruneChildren junction (child :: children) = .ok kept) :
    ∃ pruned, pruneBorrowed child = .ok pruned ∧
      (pruned = junction.decided ∧ kept = none ∨
        pruned = junction.ofNone ∧ pruneChildren junction children = .ok kept ∨
        ∃ predicate label rest, pruned = .feasible predicate label ∧
          pruneChildren junction children = .ok rest ∧
          kept = rest.map (junction.joined predicate ++ ·)) := by
  obtain ⟨pruned, hpruned, h⟩ := except_bind_ok h
  refine ⟨pruned, hpruned, ?_⟩
  cases pruned with
  | feasible predicate label =>
    obtain ⟨rest, hrest, h⟩ : ∃ rest, pruneChildren junction children = .ok rest ∧
        (pure (rest.map (junction.joined predicate ++ ·)) : Except PlannerError _) = .ok kept := by
      cases junction <;> exact except_bind_ok h
    cases h
    exact .inr (.inr ⟨predicate, label, rest, rfl, hrest, rfl⟩)
  | impossible =>
    cases junction with
    | and => cases h; exact .inl ⟨rfl, rfl⟩
    | or => exact .inr (.inl ⟨rfl, h⟩)
  | tautology =>
    cases junction with
    | and => exact .inr (.inl ⟨rfl, h⟩)
    | or => cases h; exact .inl ⟨rfl, rfl⟩

/-- What a child adds in front, once it agrees with its child. -/
theorem Junction.childrenAgree_append {w v : Bool} {first : List Predicate}
    {rest : Option (List Predicate)} (hfirst : evalJunction row junction.all first = .ok w)
    (hrest : w = junction.all → junction.ChildrenAgree row v rest) (hv : w ≠ junction.all → v = w) :
    junction.ChildrenAgree row v (rest.map (first ++ ·)) := by
  cases rest with
  | some rest => exact evalJunction_append hfirst hrest hv
  | none =>
    show v = !junction.all
    by_cases hw : w = junction.all
    · exact hrest hw
    · rw [hv hw]
      exact Bool.eq_not.mpr hw

mutual

theorem pruned_agrees : ∀ {predicate : Predicate} {pruned : PrunedPredicate} {v : Bool},
    pruneBorrowed predicate = .ok pruned → predicate.eval row = .ok v → pruned.Agrees row v
  | .and (child :: children), pruned, v, h, heval
  | .or (child :: children), pruned, v, h, heval => by
    obtain ⟨kept, hkept, h⟩ := except_bind_ok h
    have hagree := pruneChildren_agree hkept heval
    cases kept with
    | none =>
      cases h
      exact hagree
    | some kept => exact Junction.rebuild_agrees h hagree
  | .and [], _, _, h, heval | .or [], _, _, h, heval | .compare _ _ _, _, _, h, heval
  | .between _ _ _, _, _, h, heval | .hasKey _, _, _, h, heval | .isNull _, _, _, h, heval
  | .isNotNull _, _, _, h, heval | .stringTest _ _ _, _, _, h, heval | .isIn _ _, _, _, h, heval
  | .not _, _, _, h, heval => checkedPrunedPredicate_agrees h heval

theorem pruneChildren_agree : ∀ {children : List Predicate} {junction : Junction}
    {kept : Option (List Predicate)} {v : Bool}, pruneChildren junction children = .ok kept →
      evalJunction row junction.all children = .ok v → junction.ChildrenAgree row v kept
  | [], junction, kept, v, h, heval => by
    cases h
    exact heval
  | child :: children, junction, kept, v, h, heval => by
    obtain ⟨pruned, hpruned, hkept⟩ := pruneChildren_cons h
    -- the child's own value `w`: the others are looked at only when it is the default
    obtain ⟨w, hchild, hrest, hv⟩ : ∃ w, child.eval row = .ok w ∧
        (w = junction.all → evalJunction row junction.all children = .ok v) ∧
        (w ≠ junction.all → v = w) := by
      rcases evalJunction_cons.mp heval with ⟨hchild, hv⟩ | ⟨hchild, hrest⟩
      · exact ⟨_, hchild, fun hw => absurd hw (by simp), fun _ => hv⟩
      · exact ⟨_, hchild, fun _ => hrest, fun hw => absurd rfl hw⟩
    have hagrees := pruned_agrees hpruned hchild
    rcases hkept with ⟨rfl, rfl⟩ | ⟨rfl, hchildren⟩ | ⟨predicate, label, rest, rfl, hchildren, rfl⟩
    · have hw := Junction.decided_agrees.mp hagrees
      show v = !junction.all
      rw [hv (by simp [hw]), hw]
    · exact pruneChildren_agree hchildren (hrest (Junction.ofNone_agrees.mp hagrees))
    · exact Junction.childrenAgree_append (junction.evalJunction_joined hagrees.1)
        (fun hw => pruneChildren_agree hchildren (hrest hw)) hv

end

/-- **Pruning agrees with the evaluator** on every row it does not fail on: an
impossible predicate is false, a tautology is true, and a residual has the
predicate's own value, with the scope's label on every row where it is true. -/
theorem pruneBorrowed_agrees {predicate : Predicate} {pruned : PrunedPredicate} {v : Bool}
    (h : pruneBorrowed predicate = .ok pruned) (heval : predicate.eval row = .ok v) :
    (pruned = .impossible → v = false) ∧ (pruned = .tautology → v = true) ∧
      ∀ residual label, pruned = .feasible residual label →
        residual.eval row = .ok v ∧
          ∀ name : NonEmptyString, label = .scoped name → v = true →
            row.property "$label" = .ok (some (.string name)) := by
  have hagrees := pruned_agrees h heval
  refine ⟨?_, ?_, ?_⟩
  · rintro rfl
    exact hagrees
  · rintro rfl
    exact hagrees
  · rintro residual label rfl
    refine ⟨hagrees.1, ?_⟩
    rintro name rfl htrue
    exact hagrees.2 htrue

/-- A labelled row with an age, for a conjunction with a dead branch. -/
def userRow : Row Empty where
  property name := .ok (if name = "$label" then some (.string "User")
    else if name = "age" then some (.i64 30) else none)
  computed _ := .ok .null

/-- The users with an age, written with a branch that is never true. -/
def userWithAge : Predicate :=
  .and [.compare (.property "$label") .eq (.constant (.string "User")),
    .or [.compare (.constant (.bool true)) .eq (.constant (.bool false)), .isNotNull "age"]]

theorem pruneBorrowed_agrees_userWithAge :
    userRow.property "$label" = .ok (some (.string "User")) :=
  ((pruneBorrowed_agrees
    (show pruneBorrowed userWithAge = .ok (.feasible
      (.and [.compare (.property "$label") .eq (.constant (.string "User")), .isNotNull "age"])
      (.scoped ⟨"User", by decide⟩)) from rfl)
    (show userWithAge.eval userRow = .ok true from rfl)).2.2 _ _ rfl).2 _ rfl rfl

end Agrees

end HelixDb.Planner
