import ParetoSelection.Failure

/-!
# Fitness matrices

The fitness of a population is one row of objective values per candidate, and
every objective is maximized. A candidate is its position in the matrix.

Rows may have any length until `objectiveCount` has looked at them: it accepts
a matrix exactly when there is a row, the first row has an objective, and all
rows are as long as the first.
-/

namespace ParetoSelection

/-- **The fitness of a population**: one row of objective values per
candidate. -/
abbrev FitnessMatrix (α : Type) := Array (List α)

namespace FitnessMatrix

variable {α : Type}

/-- The objective values of a candidate; a candidate that does not exist has
none. -/
def row (m : FitnessMatrix α) (i : Nat) : List α :=
  m.getD i []

/-- All candidates, in order. -/
def candidates (m : FitnessMatrix α) : List Nat :=
  List.range m.size

/-- The number of objectives of the first row, zero if there is none. -/
def width (m : FitnessMatrix α) : Nat :=
  (m.row 0).length

/-- **The number of objectives that all rows share**, or why there is none:
no row, an empty first row, or a row – the first one is reported – that is
not as long as the first. -/
def objectiveCount (m : FitnessMatrix α) : Except SelectionError Nat :=
  if m.isEmpty then
    .error (.configuration .emptyFitness)
  else if m.width = 0 then
    .error (.configuration .noObjectives)
  else
    match m.findIdx? (·.length ≠ m.width) with
    | some i => .error (.dimensionMismatch i m.width (m.row i).length)
    | none => .ok m.width

/-- The rows of the given candidates, in the given order. -/
def pick (m : FitnessMatrix α) (indices : List Nat) : FitnessMatrix α :=
  (indices.map m.row).toArray

end FitnessMatrix

end ParetoSelection
