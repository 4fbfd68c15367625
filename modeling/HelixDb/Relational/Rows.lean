/-
  HelixDb.Relational.Rows

  **ROWS OF AN OPERATOR**: the window of a projection and the rows a predicate keeps.
-/
import HelixDb.Relational.Match
import HelixDb.Lib.Saturating

namespace HelixDb.Relational

open HelixDb.Lib

/-! ## §1. Windows. -/

/-- `nonnegative`. -/
def nonnegative : Value → Result Nat
  | .integer value =>
    if 0 ≤ value.toInt then .ok value.toInt.toNat
    else .error (.runtime "syntax_error" "negative_integer_argument"
      "expected a nonnegative integer")
  | _ => .error (.runtime "syntax_error" "invalid_argument_type" "expected an integer")

/-- The row that constant expressions see. -/
def emptyRow : Row := fun _ => .null

/-- `SKIP` and `LIMIT`. -/
structure Window where
  skip : Nat
  limit : Nat

/-- The value of `SKIP` or `LIMIT`. -/
def evaluateOffset (context : Context) (default : Nat) : Option Expression → Result Nat
  | none => .ok default
  | some expression => do
    let value ← eval context none emptyRow expression
    nonnegative value

/-- `Window::evaluate`: SKIP before LIMIT; no LIMIT means every remaining row. -/
def Window.evaluate (context : Context) (skip limit : Option Expression) : Result Window := do
  let skip ← evaluateOffset context 0 skip
  let limit ← evaluateOffset context U64_MAX limit
  pure { skip, limit }

/-- `truncate`, then drop the skipped rows. -/
def Window.apply (window : Window) {α : Type} (rows : List α) : List α :=
  (rows.take (saturatingAdd window.skip window.limit)).drop window.skip

/-! ## §2. Row by row. -/

/-- Whether the row is kept by a predicate. -/
def selects (context : Context) (predicate : Expression) (row : Row) : Result Bool := do
  let value ← eval context none row predicate
  let truth ← value.truth
  pure (truth == some true)

/-- The row, if the predicate selects it. -/
def filterRow (context : Context) (predicate : Expression) (row : Row) : Result (List Row) := do
  let keep ← selects context predicate row
  pure (if keep then [row] else [])

end HelixDb.Relational
