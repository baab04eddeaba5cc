import ParetoSelection.Dominance
import ParetoSelection.StableSort

/-!
# Undominated candidates

A *front finder* takes a list of candidates, each with its fitness row, and
returns those that no other one of the list dominates. This module has the
lexicographic order that two of the finders start from, and the two finders
that are a single pass: the candidates tied with the maximum, for one
objective, and the filter along the lexicographic order.

In descending lexicographic order a candidate can only be dominated by one
that precedes it – as long as values that differ do so by more than the
tolerance – so comparing each candidate with those already kept suffices.
-/

namespace ParetoSelection

open Scalar

variable {α ι : Type} [Scalar α]

/-- The lexicographic comparison of two rows with the larger value first, over
the objectives that both rows have. -/
def lexDescending : List α → List α → Ordering
  | x :: a, y :: b => (totalCmp y x).then (lexDescending a b)
  | _, _ => .eq

namespace Maxima

variable (row : ι → List α)

/-- **The candidates in descending lexicographic order**; those with equal rows
keep their order. -/
def descending (candidates : List ι) : List ι :=
  stableSort (fun i j => (lexDescending (row i) (row j)).isLE) candidates

/-- The first objective of a candidate. -/
def firstObjective (i : ι) : α :=
  (row i).headD 0

/-- **The front for one objective**: all candidates tied with the maximum. -/
def oneObjective (candidates : List ι) : List ι :=
  let best := candidates.foldl (fun m i => maxNum m (firstObjective row i)) negInfinity
  candidates.filter fun i => isEqualWithin defaultTolerance best (firstObjective row i)

/-- Whether one of the kept candidates dominates candidate `i`. -/
def isDominatedBy (kept : List ι) (i : ι) : Bool :=
  kept.any fun k => dominates (row k) (row i)

/-- The filter: goes through the candidates in order and keeps those that
nothing kept so far dominates. -/
def keepUndominated (candidates : List ι) : List ι :=
  candidates.foldl (fun kept i => if isDominatedBy row kept i then kept else kept ++ [i]) []

/-- **The front by sorting and filtering.** -/
def sortFilter (candidates : List ι) : List ι :=
  keepUndominated row (descending row candidates)

end Maxima

end ParetoSelection
