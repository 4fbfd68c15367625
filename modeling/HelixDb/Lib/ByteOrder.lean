/-
  HelixDb.Lib.ByteOrder

  **BYTE STRINGS AS SORT KEYS.**

  Stored keys are compared byte by byte.  A value code may be used inside a
  longer key when what follows it never decides between two different values:
  their codes must differ at a byte both of them have.

    • `SortsBefore a b` — the first difference of `a` and `b` is a byte where
      `a` is smaller; stable under anything that follows,
    • `sortsBefore_beBytes`, `sortsBefore_terminated` — the two codes most
      keys are made of: big-endian numbers and zero-terminated strings,
    • `OrderedCode` — a code that sorts as the values it stands for, and what
      follows: it is injective on values, has no proper prefixes, breaks ties
      by what follows, and reverses under complement.
-/
import HelixDb.Lib.Bytes

namespace HelixDb.Lib

/-- Bytes in unsigned order, and with it byte strings in lexicographic order. -/
instance instLinearOrderUInt8 : LinearOrder UInt8 where
  le := (· ≤ ·)
  lt := (· < ·)
  le_refl := UInt8.le_refl
  le_trans _ _ _ := UInt8.le_trans
  le_antisymm _ _ := UInt8.le_antisymm
  le_total := UInt8.le_total
  lt_iff_le_not_ge a b := by
    rw [UInt8.lt_iff_toNat_lt, UInt8.le_iff_toNat_le, UInt8.le_iff_toNat_le]
    omega
  toDecidableLE := inferInstance

/-! ## §1. The first difference. -/

/-- `a` and `b` first differ at a byte where `a` is smaller. -/
def SortsBefore (a b : Bytes) : Prop :=
  ∃ common x y a' b', a = common ++ x :: a' ∧ b = common ++ y :: b' ∧ x < y

namespace SortsBefore

variable {a b : Bytes}

theorem of_head {x y : UInt8} (h : x < y) (a' b' : Bytes) : SortsBefore (x :: a') (y :: b') :=
  ⟨[], x, y, a', b', rfl, rfl, h⟩

section

variable (h : SortsBefore a b)
include h

/-- Strings behind a common start. -/
theorem append_left (start : Bytes) :
    SortsBefore (start ++ a) (start ++ b) := by
  obtain ⟨common, x, y, a', b', rfl, rfl, hxy⟩ := h
  exact ⟨start ++ common, x, y, a', b', by simp, by simp, hxy⟩

/-- What follows two strings does not matter. -/
theorem append_right (s t : Bytes) : SortsBefore (a ++ s) (b ++ t) := by
  obtain ⟨common, x, y, a', b', rfl, rfl, hxy⟩ := h
  exact ⟨common, x, y, a' ++ s, b' ++ t, by simp, by simp, hxy⟩

theorem lt : a < b := by
  obtain ⟨common, x, y, a', b', rfl, rfl, hxy⟩ := h
  induction common with
  | nil => exact List.cons_lt_cons_iff.mpr (Or.inl hxy)
  | cons c common ih => exact List.cons_lt_cons_iff.mpr (Or.inr ⟨rfl, ih⟩)

theorem not_isPrefix : ¬ a <+: b := by
  rintro ⟨t, rfl⟩
  have hlt := (h.append_right t []).lt
  rw [List.append_nil] at hlt
  exact lt_irrefl _ hlt

theorem not_isPrefix' : ¬ b <+: a := by
  rintro ⟨t, rfl⟩
  have hlt := (h.append_right [] t).lt
  rw [List.append_nil] at hlt
  exact lt_irrefl _ hlt

end

end SortsBefore

/-- Every byte complemented. -/
def complement (bytes : Bytes) : Bytes := bytes.map fun byte => ~~~ byte

theorem complement_lt_complement {x y : UInt8} (h : x < y) : ~~~ y < ~~~ x := by
  have hx := x.toNat_lt
  have hy := y.toNat_lt
  rw [UInt8.lt_iff_toNat_lt] at h ⊢
  rw [UInt8.toNat_not, UInt8.toNat_not]
  have hsize : UInt8.size = 256 := rfl
  omega

/-- Complementing reverses the order. -/
theorem SortsBefore.complement {a b : Bytes} (h : SortsBefore a b) :
    SortsBefore (complement b) (complement a) := by
  obtain ⟨common, x, y, a', b', rfl, rfl, hxy⟩ := h
  refine ⟨Lib.complement common, ~~~ y, ~~~ x, Lib.complement b', Lib.complement a', ?_, ?_,
    complement_lt_complement hxy⟩
  · simp [Lib.complement]
  · simp [Lib.complement]

/-! ## §2. Numbers and strings. -/

/-- Big-endian strings of one width are ordered as their numbers. -/
theorem sortsBefore_beBytes (w : Nat) :
    ∀ {m n : Nat}, m < n → n < 256 ^ w → SortsBefore (beBytes w m) (beBytes w n) := by
  induction w with
  | zero =>
    intro m n hmn hn
    rw [Nat.pow_zero] at hn
    omega
  | succ w ih =>
    intro m n hmn hn
    have hpos : 0 < 256 ^ w := Nat.pow_pos (by decide)
    have hdiv : n / 256 ^ w < 256 := by
      rwa [Nat.div_lt_iff_lt_mul hpos, Nat.mul_comm, ← Nat.pow_succ]
    -- the leading bytes decide, unless they agree
    rcases Nat.lt_or_eq_of_le (Nat.div_le_div_right (c := 256 ^ w) hmn.le) with hlead | hlead
    · refine SortsBefore.of_head ?_ _ _
      rw [UInt8.lt_iff_toNat_lt, UInt8.toNat_ofNat', UInt8.toNat_ofNat',
        Nat.mod_eq_of_lt hdiv, Nat.mod_eq_of_lt (hlead.trans hdiv)]
      exact hlead
    · have hm := Nat.div_add_mod m (256 ^ w)
      have hn' := Nat.div_add_mod n (256 ^ w)
      rw [hlead] at hm
      have hrest := ih (m := m % 256 ^ w) (n := n % 256 ^ w) (by omega) (Nat.mod_lt _ hpos)
      show SortsBefore ([UInt8.ofNat (m / 256 ^ w)] ++ beBytes w (m % 256 ^ w))
        ([UInt8.ofNat (n / 256 ^ w)] ++ beBytes w (n % 256 ^ w))
      rw [hlead]
      exact hrest.append_left _

/-- Two numbers, the first one deciding unless they agree in it. -/
theorem sortsBefore_pair (v w : Nat) {a b c d : Nat} (h : a < c ∨ a = c ∧ b < d) (hc : c < 256 ^ v)
    (hd : d < 256 ^ w) : SortsBefore (beBytes v a ++ beBytes w b) (beBytes v c ++ beBytes w d) := by
  rcases h with hac | ⟨rfl, hbd⟩
  · exact (sortsBefore_beBytes v hac hc).append_right _ _
  · exact (sortsBefore_beBytes w hbd hd).append_left _

/-- A string whose zero bytes are escaped as `00 FF`. -/
def escapeZeros (bytes : Bytes) : Bytes :=
  bytes.flatMap fun byte => if byte = 0 then [0, 0xFF] else [byte]

/-- An escaped string behind which `00 00` stands. -/
def terminated (bytes : Bytes) : Bytes := escapeZeros bytes ++ [0, 0]

theorem terminated_cons (byte : UInt8) (bytes : Bytes) :
    terminated (byte :: bytes) = (if byte = 0 then [0, 0xFF] else [byte]) ++ terminated bytes := by
  simp [terminated, escapeZeros]

/-- **Terminated strings are ordered as the strings**: an end sorts below any
continuation, an escaped zero included. -/
theorem sortsBefore_terminated {u : Bytes} :
    ∀ {v : Bytes}, u < v → SortsBefore (terminated u) (terminated v) := by
  induction u with
  | nil =>
    intro v huv
    cases v with
    | nil => exact absurd huv (lt_irrefl _)
    | cons y v =>
      rw [terminated_cons]
      split_ifs with hy
      · exact (SortsBefore.of_head (by decide) _ _).append_left [0]
      · exact SortsBefore.of_head (UInt8.pos_iff_ne_zero.mpr hy) _ _
  | cons x u ih =>
    intro v huv
    cases v with
    | nil => exact absurd huv (List.not_lt_nil _)
    | cons y v =>
      rw [terminated_cons, terminated_cons]
      rcases List.cons_lt_cons_iff.mp huv with hxy | ⟨rfl, htail⟩
      · have hy : y ≠ 0 := by
          rintro rfl
          exact absurd (UInt8.lt_iff_toNat_lt.mp hxy) (Nat.not_lt_zero _)
        rw [if_neg hy]
        split_ifs with hx
        · exact SortsBefore.of_head (UInt8.pos_iff_ne_zero.mpr hy) _ _
        · exact SortsBefore.of_head hxy _ _
      · exact (ih htail).append_left _

/-! ## §3. Codes that sort as their values. -/

/-- A code of `ι` that sorts as the values `val` in a linear order. -/
structure OrderedCode {ι α : Type} [LinearOrder α] (enc : ι → Bytes) (val : ι → α) : Prop where
  same : ∀ i j, val i = val j → enc i = enc j
  below : ∀ i j, val i < val j → SortsBefore (enc i) (enc j)

namespace OrderedCode

variable {ι α : Type} [LinearOrder α] {enc : ι → Bytes} {val : ι → α}

section

variable (h : OrderedCode enc val)
include h

/-- Equal codes are codes of equal values. -/
theorem eq_iff (i j : ι) : enc i = enc j ↔ val i = val j := by
  refine ⟨fun heq => ?_, h.same i j⟩
  rcases lt_trichotomy (val i) (val j) with hlt | hval | hgt
  · exact absurd heq (h.below i j hlt).lt.ne
  · exact hval
  · exact absurd heq (h.below j i hgt).lt.ne'

/-- No code is a proper prefix of another. -/
theorem eq_of_isPrefix {i j : ι} (hpre : enc i <+: enc j) :
    enc i = enc j := by
  rcases lt_trichotomy (val i) (val j) with hlt | hval | hgt
  · exact absurd hpre (h.below i j hlt).not_isPrefix
  · exact h.same i j hval
  · exact absurd hpre (h.below j i hgt).not_isPrefix'

/-- **The values decide, and ties are broken by what follows.** -/
theorem append_lt_iff (i j : ι) (s t : Bytes) :
    enc i ++ s < enc j ++ t ↔ val i < val j ∨ val i = val j ∧ s < t := by
  rcases lt_trichotomy (val i) (val j) with hlt | hval | hgt
  · have hbefore := ((h.below i j hlt).append_right s t).lt
    simp [hlt, hbefore]
  · have hmono : StrictMono fun u : Bytes => enc j ++ u := fun _ _ hlt => List.append_left_lt hlt
    rw [h.same i j hval]
    simpa [hval] using hmono.lt_iff_lt
  · have hbefore := ((h.below j i hgt).append_right t s).lt
    simp [hgt.not_gt, hgt.ne', hbefore.not_gt]

/-- Codes compare as the values do. -/
theorem compares (i j : ι) :
    (cmp (val i) (val j)).Compares (enc i) (enc j) := by
  rcases lt_trichotomy (val i) (val j) with hlt | hval | hgt
  · rw [hlt.cmp_eq_lt]
    exact (h.below i j hlt).lt
  · rw [hval.cmp_eq_eq]
    exact h.same i j hval
  · rw [hgt.cmp_eq_gt]
    exact (h.below j i hgt).lt

/-- The complemented code sorts in the reversed order. -/
theorem complement :
    OrderedCode (fun i => Lib.complement (enc i)) (fun i => OrderDual.toDual (val i)) where
  same i j hval := congrArg Lib.complement (h.same i j (OrderDual.toDual_inj.mp hval))
  below i j hlt := (h.below j i (OrderDual.toDual_lt_toDual.mp hlt)).complement

end

end OrderedCode

end HelixDb.Lib
