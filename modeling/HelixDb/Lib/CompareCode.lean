/-
  HelixDb.Lib.CompareCode

  **COMPARISONS READ OFF CODES.**

  A recursive comparison is a total order when it is the lexicographic order of
  codes.  The codes have to decide whatever follows them, so that the code of a
  compound value can be put together from the codes of its parts.

    • `codedAt_codeList` — lists of coded parts;
    • `transCmp_of_coded` — a coded comparison is a total order;
    • `cmp_eq_compareLex` — the order of lists as an elementwise comparison.
-/
import Mathlib

namespace HelixDb.Lib

variable {α β τ : Type} {t : τ → τ → Ordering}

/-! ## §1. Codes. -/

/-- The code of `a` compares with every other code as `c` does, and leaves ties
to what follows. -/
def CodedAt (t : τ → τ → Ordering) (c : α → α → Ordering) (code : α → List τ) (a : α) : Prop :=
  ∀ b rest rest', List.compareLex t (code a ++ rest) (code b ++ rest') =
    (c a b).then (List.compareLex t rest rest')

theorem CodedAt.compare_eq {c : α → α → Ordering} {code : α → List τ} {a : α}
    (h : CodedAt t c code a) (b : α) : c a b = List.compareLex t (code a) (code b) := by
  have hb := h b [] []
  rw [List.append_nil, List.append_nil, List.compareLex_nil_nil, Ordering.then_eq] at hb
  exact hb.symm

/-- **A coded comparison is a total order.** -/
theorem transCmp_of_coded [Std.TransCmp t] {c : α → α → Ordering} {code : α → List τ}
    (h : ∀ a, CodedAt t c code a) : Std.TransCmp c := by
  have hcode : ∀ a b, c a b = List.compareLex t (code a) (code b) := fun a b => (h a).compare_eq b
  have horiented : Std.OrientedCmp c := ⟨fun {a b} => by
    rw [hcode, hcode b a]
    exact Std.OrientedCmp.eq_swap⟩
  refine { horiented with isLE_trans := ?_ }
  intro a b d hab hbd
  rw [hcode] at hab hbd ⊢
  exact Std.TransCmp.isLE_trans hab hbd

/-! ## §2. Lists. -/

/-- Elements behind a mark each, then the end. -/
def codeList (more stop : τ) (code : α → List τ) : List α → List τ
  | [] => [stop]
  | a :: as => more :: (code a ++ codeList more stop code as)

/-- A list is coded where its elements are; a shorter list comes first. -/
theorem codedAt_codeList [Std.TransCmp t] {more stop : τ} (hlt : t stop more = .lt)
    {c : α → α → Ordering} {code : α → List τ} {as : List α} (h : ∀ a ∈ as, CodedAt t c code a) :
    CodedAt t (List.compareLex c) (codeList more stop code) as := by
  have hself : ∀ token, t token token = .eq := fun token => Std.ReflCmp.compare_self
  have hgt : t more stop = .gt := Std.OrientedCmp.gt_iff_lt.mpr hlt
  induction as with
  | nil =>
    intro bs rest rest'
    cases bs with
    | nil =>
      rw [codeList, List.cons_append, List.cons_append, List.compareLex_cons_cons, hself]
      rfl
    | cons b bs =>
      rw [codeList, codeList, List.cons_append, List.cons_append, List.compareLex_cons_cons, hlt]
      rfl
  | cons a as ih =>
    rw [List.forall_mem_cons] at h
    intro bs rest rest'
    cases bs with
    | nil =>
      rw [codeList, codeList, List.cons_append, List.cons_append, List.compareLex_cons_cons, hgt]
      rfl
    | cons b bs =>
      rw [codeList, codeList, List.cons_append, List.cons_append, List.compareLex_cons_cons,
        hself, Ordering.eq_then, List.append_assoc, List.append_assoc, h.1, ih h.2,
        List.compareLex_cons_cons, Ordering.then_assoc]

/-- How `<` is decided does not matter. -/
theorem cmp_decidable [LT α] (decide decide' : DecidableLT α) (a b : α) :
    @cmp α _ decide a b = @cmp α _ decide' a b := by
  rw [Subsingleton.elim decide decide']

theorem eq_of_cmp_eq [LinearOrder α] {decide : DecidableLT α} {a b : α}
    (h : @cmp α _ decide a b = .eq) : a = b := by
  rw [cmp_decidable decide LinearOrder.toDecidableLT] at h
  exact (cmp_eq_eq_iff a b).mp h

/-- A strictly monotone map keeps comparisons. -/
theorem compare_eq_cmp [LinearOrder α] [LinearOrder β] {f : α → β} (h : StrictMono f)
    {decide : DecidableLT α} (a b : α) : compare (f a) (f b) = @cmp α _ decide a b := by
  rw [← cmp_eq_compare, h.cmp_map_eq]
  exact cmp_decidable _ _ a b

theorem compare_eq_compare [LinearOrder α] [LinearOrder β] {f : α → β} (h : StrictMono f)
    (a b : α) : compare (f a) (f b) = compare a b :=
  (compare_eq_cmp h a b).trans (cmp_eq_compare a b)

theorem compareLex_map (c : β → β → Ordering) (f : α → β) (as : List α) :
    ∀ bs : List α, List.compareLex c (as.map f) (bs.map f) =
      List.compareLex (fun a b => c (f a) (f b)) as bs := by
  induction as with
  | nil =>
    intro bs
    cases bs with
    | nil => simp [List.compareLex_nil_nil]
    | cons b bs => simp [List.compareLex_nil_cons]
  | cons a as ih =>
    intro bs
    cases bs with
    | nil => simp [List.compareLex_cons_nil]
    | cons b bs =>
      rw [List.map_cons, List.map_cons, List.compareLex_cons_cons, ih,
        List.compareLex_cons_cons]

/-- An order whose parts decide one after the other compares part by part. -/
theorem cmp_eq_then {γ : Type} [LT α] {_ : DecidableLT α} [LinearOrder β] [LT γ]
    {_ : DecidableLT γ} {a b : α} {p q : β} {r s : γ} (hlt : a < b ↔ p < q ∨ p = q ∧ r < s)
    (hgt : b < a ↔ q < p ∨ q = p ∧ s < r) : cmp a b = (cmp p q).then (cmp r s) := by
  unfold cmp cmpUsing
  simp only [hlt, hgt]
  rcases lt_trichotomy p q with h | h | h
  · simp [h]
  · simp [h]
  · simp [h, h.not_gt, h.ne']

/-- The order of lists compares element by element. -/
theorem cmp_eq_compareLex [LinearOrder α] [DecidableLT (List α)] (as : List α) :
    ∀ bs : List α, cmp as bs = List.compareLex cmp as bs := by
  induction as with
  | nil =>
    intro bs
    cases bs with
    | nil => simp [cmp, List.compareLex_nil_nil]
    | cons b bs => simp [cmp, List.compareLex_nil_cons]
  | cons a as ih =>
    intro bs
    cases bs with
    | nil => simp [cmp, List.compareLex_cons_nil]
    | cons b bs =>
      rw [List.compareLex_cons_cons, ← ih bs]
      exact cmp_eq_then List.cons_lt_cons_iff List.cons_lt_cons_iff

end HelixDb.Lib
