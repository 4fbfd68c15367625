/-
  HelixDb.Lib.Saturating

  **SATURATING `u64` ARITHMETIC** on natural numbers.

  A `u64` is modelled as a natural number at most `U64_MAX`.  `U64_MAX` stays
  folded in every lemma, so that `omega` sees one atom and not a literal of
  twenty digits.
-/
import Mathlib

namespace HelixDb.Lib

/-- `u64::MAX`. -/
def U64_MAX : Nat := 2 ^ 64 - 1

/-- `u64::saturating_add`. -/
def saturatingAdd (a b : Nat) : Nat := min (a + b) U64_MAX

/-- `u64::saturating_mul`. -/
def saturatingMul (a b : Nat) : Nat := min (a * b) U64_MAX

theorem saturatingAdd_le (a b : Nat) : saturatingAdd a b ≤ U64_MAX := min_le_right _ _

theorem le_saturatingAdd {a b : Nat} (h : a ≤ U64_MAX) : a ≤ saturatingAdd a b :=
  le_min (Nat.le_add_right a b) h

theorem saturatingAdd_mono {a a' : Nat} (b : Nat) (h : a ≤ a') :
    saturatingAdd a b ≤ saturatingAdd a' b :=
  min_le_min_right _ (Nat.add_le_add_right h b)

theorem toNat_le_max (n : UInt64) : n.toNat ≤ U64_MAX :=
  Nat.le_sub_one_of_lt n.toNat_lt

end HelixDb.Lib
