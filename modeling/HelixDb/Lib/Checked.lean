/-
  HelixDb.Lib.Checked

  **MACHINE ARITHMETIC THAT REPORTS OVERFLOW.**

  A machine integer is the mathematical integer it holds.  An operation whose
  result does not fit its width has no result here, so that a theorem can say
  that a computation never overflows: it has one.
-/
import Mathlib

namespace HelixDb.Lib

/-- The result of an operation on signed integers of a width. -/
def signed (width : Nat) (value : Int) : Option Int :=
  if -2 ^ (width - 1) ≤ value ∧ value < 2 ^ (width - 1) then some value else none

/-- The result of an operation on unsigned integers of a width. -/
def unsigned (width : Nat) (value : Nat) : Option Nat :=
  if value < 2 ^ width then some value else none

/-- Unsigned subtraction. -/
def checkedSub (left right : Nat) : Option Nat :=
  if right ≤ left then some (left - right) else none

/-- `value >> shift`: the shift is less than the width. -/
def checkedShr (width value : Nat) (shift : Int) : Option Nat :=
  if 0 ≤ shift ∧ shift < width then some (value >>> shift.toNat) else none

/-- `value << shift`: the shift is less than the width and no bit is lost. -/
def checkedShl (width value shift : Nat) : Option Nat :=
  if shift < width then unsigned width (value <<< shift) else none

section Results

variable {width : Nat}

theorem signed_of_bounds {value : Int} (hlow : -2 ^ (width - 1) ≤ value)
    (hhigh : value < 2 ^ (width - 1)) : signed width value = some value := if_pos ⟨hlow, hhigh⟩

theorem unsigned_of_lt {value : Nat} (h : value < 2 ^ width) : unsigned width value = some value :=
  if_pos h

theorem checkedSub_of_le {left right : Nat} (h : right ≤ left) :
    checkedSub left right = some (left - right) := if_pos h

theorem checkedShr_of_lt {value shift : Nat} (h : shift < width) :
    checkedShr width value shift = some (value >>> shift) :=
  if_pos ⟨Int.natCast_nonneg shift, Int.ofNat_lt.mpr h⟩

theorem checkedShl_of_lt {value shift : Nat} (h : shift < width)
    (hvalue : value <<< shift < 2 ^ width) :
    checkedShl width value shift = some (value <<< shift) :=
  (if_pos h).trans (unsigned_of_lt hvalue)

end Results

end HelixDb.Lib
