import ParetoSelection.Maxima.Basic

/-!
# The front by divide and conquer

Kung's algorithm sorts the candidates lexicographically, halves the sorted
list, finds the front of each half, and keeps of the lower half what no member
of the upper front dominates. Nothing of the lower half can dominate anything
of the upper one, so the upper front survives as a whole.

The order also makes the dominance test shorter. Of two candidates the first
objective of the upper one is at least as large, so it decides only if the
lower one ties on all the others.
-/

namespace ParetoSelection

open Scalar

variable {α ι : Type} [Scalar α]

namespace Maxima

/-- The test on all objectives after the first: `none` if the lower row is
better somewhere, else whether the upper row is. -/
def restComparison (lower upper : List α) : Option Bool :=
  match lower, upper with
  | b :: lower, g :: upper =>
    if isLessWithin defaultTolerance g b then none
    else (restComparison lower upper).map (isLessWithin defaultTolerance b g || ·)
  | _, _ => some false

/-- **Whether a row is dominated by one that precedes it** in descending
lexicographic order. -/
def isDominatedFromAbove (lower upper : List α) : Bool :=
  match restComparison lower.tail upper.tail with
  | none => false
  | some better =>
    better || isLessWithin defaultTolerance (lower.headD 0) (upper.headD 0)

variable (row : ι → List α)

/-- Joins the fronts of the two halves of a sorted list. -/
def joinHalves (upper lower : List ι) : List ι :=
  upper ++ lower.filter fun i => !upper.any fun k => isDominatedFromAbove (row i) (row k)

/-- The front of a sorted list. -/
def ofSorted (sorted : List ι) : List ι :=
  if sorted.length ≤ 1 then sorted
  else
    let half := sorted.length / 2
    joinHalves row (ofSorted (sorted.take half)) (ofSorted (sorted.drop half))
termination_by sorted.length
decreasing_by all_goals grind

/-- **The front by divide and conquer.** -/
def kung (candidates : List ι) : List ι :=
  ofSorted row (descending row candidates)

end Maxima

end ParetoSelection
