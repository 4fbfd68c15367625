/-
  HelixDb.Lib.Grouping

  **EVERY WAY OF PRE-COMBINING CONTIGUOUS RUNS** of a list of operands.

  A store may combine neighbouring merge operands before it resolves them.
  `Grouping κ α` is one such nesting: a leaf is one operand, a `batch` is one
  combining call (of a kind `κ`) on the results of its parts, which stand for
  neighbouring runs.  A batch has at least one part by construction.

    • `leaves` — the run of operands a grouping covers, oldest first,
    • `eval` — the value the nested calls return,
    • `Keeps.eval` — **the induction rule**: what every call of a nesting keeps,
      the nesting keeps, up to the failures a call is allowed,
    • `eval_rel` — the same for calls that ask only for admissible runs.
-/
import HelixDb.Lib.Bytes

namespace HelixDb.Lib

/-- A nesting of combining calls over a run of operands. -/
inductive Grouping (κ α : Type) where
  | leaf (a : α)
  | batch (call : κ) (first : Grouping κ α) (rest : List (Grouping κ α))

namespace Grouping

variable {κ α β ε : Type}

/-! ## §1. The run a grouping covers, and its value. -/

mutual

/-- The operands of a grouping, oldest first. -/
def leaves : Grouping κ α → List α
  | .leaf a => [a]
  | .batch _ first rest => leaves first ++ leavesList rest

/-- The operands of neighbouring groupings, oldest first. -/
def leavesList : List (Grouping κ α) → List α
  | [] => []
  | g :: gs => leaves g ++ leavesList gs

end

/-- A grouping covers at least one operand. -/
theorem leaves_ne_nil : ∀ t : Grouping κ α, t.leaves ≠ []
  | .leaf a => List.cons_ne_nil a []
  | .batch _ first rest => by
    simp only [leaves]
    exact List.append_ne_nil_of_left_ne_nil (leaves_ne_nil first) _

theorem leavesList_leaf (xs : List α) :
    leavesList (xs.map fun a => (.leaf a : Grouping κ α)) = xs := by
  induction xs with
  | nil => simp only [List.map_nil, leavesList]
  | cons x xs ih => simp only [List.map_cons, leavesList, leaves, ih, List.singleton_append]

section Eval

variable (leafVal : α → Except ε β) (combine : κ → β → List β → Except ε β)

mutual

/-- The value the nested calls return. -/
def eval : Grouping κ α → Except ε β
  | .leaf a => leafVal a
  | .batch call first rest => do
    let b ← eval first
    let bs ← evalList rest
    combine call b bs

/-- The values of neighbouring groupings. -/
def evalList : List (Grouping κ α) → Except ε (List β)
  | [] => .ok []
  | g :: gs => do
    let b ← eval g
    let bs ← evalList gs
    return b :: bs

end

end Eval

/-! ## §2. Outcomes of fallible calls. -/

/-- A call returns a value with `P`, or fails with an error allowed by `Fail`. -/
def Yields (Fail : ε → Prop) (P : β → Prop) : Except ε β → Prop
  | .ok b => P b
  | .error e => Fail e

/-- The two outcomes. -/
theorem Yields.ok_or_error {Fail : ε → Prop} {P : β → Prop} {x : Except ε β} (h : Yields Fail P x) :
    (∃ b, x = .ok b ∧ P b) ∨ ∃ e, x = .error e ∧ Fail e := by
  cases x with
  | ok b => exact .inl ⟨b, rfl, h⟩
  | error e => exact .inr ⟨e, rfl, h⟩

/-- A call with no allowed failure returns. -/
theorem Yields.exists_ok {P : β → Prop} {x : Except ε β} (h : Yields (fun _ => False) P x) :
    ∃ b, x = .ok b ∧ P b := by
  obtain hok | ⟨_, -, hfalse⟩ := h.ok_or_error
  · exact hok
  · exact hfalse.elim

/-- A weaker guarantee, with the same allowed failures. -/
theorem Yields.mono {Fail : ε → Prop} {P Q : β → Prop} {x : Except ε β} (hx : Yields Fail P x)
    (hPQ : ∀ b, P b → Q b) : Yields Fail Q x := by
  cases x with
  | ok b => exact hPQ b hx
  | error e => exact hx

/-- The same guarantee, with more failures allowed. -/
theorem Yields.weaken {Fail Fail' : ε → Prop} {P : β → Prop} {x : Except ε β}
    (hx : Yields Fail P x) (hFail : ∀ e, Fail e → Fail' e) : Yields Fail' P x := by
  cases x with
  | ok b => exact hx
  | error e => exact hFail e hx

/-- One call after another. -/
theorem Yields.bind {γ : Type} {Fail : ε → Prop} {P : β → Prop} {Q : γ → Prop} {x : Except ε β}
    {f : β → Except ε γ} (hx : Yields Fail P x) (hf : ∀ b, P b → Yields Fail Q (f b)) :
    Yields Fail Q (x >>= f) := by
  cases x with
  | ok b => exact hf b hx
  | error e => exact hx

/-! ## §3. The induction rule. -/

/-- What a combining call has to do for a relation between runs and values:
given neighbouring runs and their values, it relates the joined run to its
result, or fails in an allowed way. -/
def Combines (Fail : ε → Prop) (Adm : List α → Prop) (Rel : List α → β → Prop)
    (combine : κ → β → List β → Except ε β) : Prop :=
  ∀ (call : κ) (x : List α × β) (xs : List (List α × β)),
    (∀ p ∈ x :: xs, Rel p.1 p.2) → Adm ((x :: xs).flatMap Prod.fst) →
      Yields Fail (Rel ((x :: xs).flatMap Prod.fst)) (combine call x.2 (xs.map Prod.snd))

/-- Values of neighbouring runs that make up `run`. -/
def Tiles (Rel : List α → β → Prop) (run : List α) (values : List β) : Prop :=
  ∃ ps : List (List α × β), ps.map Prod.snd = values ∧ ps.flatMap Prod.fst = run ∧
    ∀ p ∈ ps, Rel p.1 p.2

section Rule

variable {leafVal : α → Except ε β} {combine : κ → β → List β → Except ε β}
  {Fail : ε → Prop} {Adm : List α → Prop} {Rel : List α → β → Prop} {P : Grouping κ α → Prop}

/-- Groupings and their values, one by one. -/
abbrev Values (Rel : List α → β → Prop) : List (Grouping κ α) → List β → Prop :=
  List.Forall₂ fun t b => Rel t.leaves b

theorem Values.tiles {ts : List (Grouping κ α)} {bs : List β} (h : Values Rel ts bs) :
    Tiles Rel (leavesList ts) bs := by
  induction h with
  | nil => exact ⟨[], rfl, by simp only [List.flatMap_nil, leavesList], by simp⟩
  | @cons t b _ _ hb _ ih =>
    obtain ⟨ps, rfl, hruns, hrels⟩ := ih
    refine ⟨(t.leaves, b) :: ps, rfl, ?_, List.forall_mem_cons.mpr ⟨hb, hrels⟩⟩
    rw [List.flatMap_cons, hruns, leavesList]

/-- The calls of the nestings with `P` keep a relation between runs and values,
or fail as allowed. -/
structure Keeps (P : Grouping κ α → Prop) (Fail : ε → Prop) (Rel : List α → β → Prop)
    (leafVal : α → Except ε β) (combine : κ → β → List β → Except ε β) : Prop where
  parts : ∀ call first rest, P (.batch call first rest) → ∀ t ∈ first :: rest, P t
  leaf : ∀ a, P (.leaf a) → Yields Fail (Rel [a]) (leafVal a)
  batch : ∀ call first rest b bs, P (.batch call first rest) → Rel first.leaves b →
    Values Rel rest bs → Yields Fail (Rel (first.leaves ++ leavesList rest)) (combine call b bs)

mutual

/-- **What every call keeps, the nesting keeps.** -/
theorem Keeps.eval (h : Keeps P Fail Rel leafVal combine) :
    ∀ t : Grouping κ α, P t → Yields Fail (Rel t.leaves) (t.eval leafVal combine)
  | .leaf a, ht => by simpa only [Grouping.eval, leaves] using h.leaf a ht
  | .batch call first rest, ht => by
    simp only [Grouping.eval, leaves]
    obtain ⟨hfirst, hrest⟩ := List.forall_mem_cons.mp (h.parts call first rest ht)
    refine (h.eval first hfirst).bind fun b hb => (h.evalList rest hrest).bind fun bs hbs => ?_
    exact h.batch call first rest b bs ht hb hbs

/-- The same for neighbouring groupings, one value a grouping. -/
theorem Keeps.evalList (h : Keeps P Fail Rel leafVal combine) :
    ∀ ts : List (Grouping κ α), (∀ t ∈ ts, P t) →
      Yields Fail (Values Rel ts) (evalList leafVal combine ts)
  | [], _ => by
    simp only [Grouping.evalList]
    exact List.Forall₂.nil
  | t :: ts, hts => by
    simp only [Grouping.evalList]
    obtain ⟨ht, hts⟩ := List.forall_mem_cons.mp hts
    exact (h.eval t ht).bind fun b hb => (h.evalList ts hts).bind fun bs hbs => .cons hb hbs

end

/-- The run of a grouping among others. -/
theorem leaves_part {t : Grouping κ α} {ts : List (Grouping κ α)} (h : t ∈ ts) :
    t.leaves <:+: leavesList ts := by
  induction h with
  | head ts =>
    rw [leavesList]
    exact (List.prefix_append _ _).isInfix
  | tail t' _ ih =>
    rw [leavesList]
    exact ih.trans (List.suffix_append _ _).isInfix

section

variable (hpart : ∀ xs ys, xs <:+: ys → Adm ys → Adm xs)
include hpart

/-- Calls on admissible runs; a part of such a run is one. -/
theorem Combines.keeps
    (hleaf : ∀ a, Adm [a] → Yields Fail (Rel [a]) (leafVal a))
    (hbatch : Combines Fail Adm Rel combine) :
    Keeps (fun t => Adm t.leaves) Fail Rel leafVal combine where
  parts call first rest hadm t ht := by
    refine hpart _ _ (leaves_part ht) ?_
    simpa only [leavesList, leaves] using hadm
  leaf a hadm := hleaf a (by simpa only [leaves] using hadm)
  batch call first rest b bs hadm hb hbs := by
    obtain ⟨ps, rfl, hruns, hrels⟩ := hbs.tiles
    have hjoin : ((first.leaves, b) :: ps).flatMap Prod.fst
        = first.leaves ++ leavesList rest := by
      rw [List.flatMap_cons, hruns]
    simp only [leaves, ← hjoin] at hadm ⊢
    exact hbatch call (first.leaves, b) ps (List.forall_mem_cons.mpr ⟨hb, hrels⟩) hadm

/-- **A relation that survives one call survives every nesting.** -/
theorem eval_rel
    (hleaf : ∀ a, Adm [a] → Yields Fail (Rel [a]) (leafVal a))
    (hbatch : Combines Fail Adm Rel combine) (t : Grouping κ α) (hadm : Adm t.leaves) :
    Yields Fail (Rel t.leaves) (t.eval leafVal combine) :=
  (hbatch.keeps hpart hleaf).eval t hadm

/-- The same for neighbouring groupings. -/
theorem evalList_rel
    (hleaf : ∀ a, Adm [a] → Yields Fail (Rel [a]) (leafVal a))
    (hbatch : Combines Fail Adm Rel combine) (ts : List (Grouping κ α))
    (hadm : Adm (leavesList ts)) :
    Yields Fail (Tiles Rel (leavesList ts)) (evalList leafVal combine ts) := by
  refine ((hbatch.keeps hpart hleaf).evalList ts fun t ht => ?_).mono fun _ => Values.tiles
  exact hpart _ _ (leaves_part ht) hadm

end

end Rule

end Grouping

end HelixDb.Lib
