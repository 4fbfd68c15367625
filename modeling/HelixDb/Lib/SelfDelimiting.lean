/-
  HelixDb.Lib.SelfDelimiting

  **CODES THAT END THEMSELVES.**

  A code is self-delimiting on a domain when a value and what follows its code
  can both be recovered from the whole.  Such codes are injective, and counted
  lists and length-prefixed strings of them are self-delimiting again:

    • `selfDelimiting_beBytes` — fixed-width numbers,
    • `selfDelimiting_lengthPrefixed` — a length and that many bytes,
    • `SelfDelimiting.counted` — lists.
-/
import HelixDb.Lib.Bytes

namespace HelixDb.Lib

variable {α β : Type}

/-- A value of the domain `P` and what follows its code are determined. -/
def SelfDelimiting (P : α → Prop) (enc : α → Bytes) : Prop :=
  ∀ x y, P x → P y → ∀ s t, enc x ++ s = enc y ++ t → x = y ∧ s = t

namespace SelfDelimiting

variable {P : α → Prop} {Q : β → Prop} {enc : α → Bytes} {enc' : β → Bytes}

theorem inj (h : SelfDelimiting P enc) {x y : α} (hx : P x) (hy : P y) (heq : enc x = enc y) :
    x = y :=
  (h x y hx hy [] [] (congrArg (· ++ []) heq)).1

/-- The code of an image under an injective map. -/
theorem comap (h : SelfDelimiting P enc) {f : β → α} (hf : ∀ x y, Q x → Q y → f x = f y → x = y)
    (hQ : ∀ x, Q x → P (f x)) : SelfDelimiting Q fun x => enc (f x) := by
  intro x y hx hy s t heq
  obtain ⟨hxy, hst⟩ := h (f x) (f y) (hQ x hx) (hQ y hy) s t heq
  exact ⟨hf x y hx hy hxy, hst⟩

/-- Codes one after another, for two lists of one length. -/
theorem flatMap (h : SelfDelimiting P enc) {xs : List α} :
    ∀ {ys : List α}, (∀ x ∈ xs, P x) → (∀ y ∈ ys, P y) → xs.length = ys.length →
      ∀ s t, xs.flatMap enc ++ s = ys.flatMap enc ++ t → xs = ys ∧ s = t := by
  induction xs with
  | nil =>
    intro ys _ _ hlen s t heq
    cases ys with
    | nil => exact ⟨rfl, heq⟩
    | cons y ys => cases hlen
  | cons x xs ih =>
    intro ys hxs hys hlen s t heq
    cases ys with
    | nil => cases hlen
    | cons y ys =>
      obtain ⟨hx, hrestx⟩ := List.forall_mem_cons.mp hxs
      obtain ⟨hy, hresty⟩ := List.forall_mem_cons.mp hys
      simp only [List.flatMap_cons, List.append_assoc] at heq
      obtain ⟨rfl, hrest⟩ := h x y hx hy _ _ heq
      have hlen' : xs.length = ys.length := by simpa using hlen
      obtain ⟨rfl, hst⟩ := ih hrestx hresty hlen' s t hrest
      exact ⟨rfl, hst⟩

end SelfDelimiting

theorem selfDelimiting_beBytes (w : Nat) : SelfDelimiting (· < 256 ^ w) (beBytes w) := by
  intro m n hm hn s t heq
  obtain ⟨hbytes, hst⟩ := List.append_inj heq (by simp)
  exact ⟨beBytes_inj hm hn hbytes, hst⟩

/-- A length and that many bytes. -/
theorem selfDelimiting_lengthPrefixed (w : Nat) :
    SelfDelimiting (fun bytes : Bytes => bytes.length < 256 ^ w)
      fun bytes => beBytes w bytes.length ++ bytes := by
  intro a b ha hb s t heq
  simp only [List.append_assoc] at heq
  obtain ⟨hlen, hrest⟩ := selfDelimiting_beBytes w _ _ ha hb _ _ heq
  exact List.append_inj hrest hlen

/-- A count and that many codes. -/
theorem SelfDelimiting.counted {P : α → Prop} {enc : α → Bytes} (h : SelfDelimiting P enc)
    (w : Nat) :
    SelfDelimiting (fun xs : List α => xs.length < 256 ^ w ∧ ∀ x ∈ xs, P x)
      fun xs => beBytes w xs.length ++ xs.flatMap enc := by
  intro xs ys hxs hys s t heq
  simp only [List.append_assoc] at heq
  obtain ⟨hlen, hrest⟩ := selfDelimiting_beBytes w _ _ hxs.1 hys.1 _ _ heq
  exact h.flatMap hxs.2 hys.2 hlen s t hrest

end HelixDb.Lib
