/-
  HelixDb.Relational.Match

  **WHAT A MATCH READS.**

  Rows bind slots to values; a step of a plan binds one slot.
-/
import HelixDb.Relational.GraphOrder
import HelixDb.Lib.FoldM

namespace HelixDb.Relational

open HelixDb.Lib

/-- The steps of a `MatchPlan`. -/
structure MatchPlan where
  steps : List MatchStep

/-- The row with a node bound. -/
def Row.bindNode (row : Row) (slot : Slot) (id : UInt64) : Row :=
  Function.update row slot (.entity (.node id))

/-- A row seen through some of its slots: the others become null. -/
def Row.restrict (row : Row) (slots : List Slot) : Row :=
  fun slot => if slot ∈ slots then row slot else .null

theorem Row.restrict_of_mem (row : Row) {slots : List Slot} {slot : Slot} (h : slot ∈ slots) :
    row.restrict slots slot = row slot := if_pos h

theorem Row.restrict_of_not_mem (row : Row) {slots : List Slot} {slot : Slot} (h : slot ∉ slots) :
    row.restrict slots slot = .null := if_neg h

end HelixDb.Relational
