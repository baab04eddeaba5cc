import ParetoSelection.Maxima.Window

/-!
# Finders that check what they read

The finders as they go about it, with every row looked up in the matrix and every first
objective in its row. A row that is not there is a failure where a finder comes to it, and
so is a missing first objective – for the two finders that ask for it.

Sorting compares every candidate with another one, if there is another one, and so it reads
all rows or none.
-/

namespace ParetoSelection

open Scalar

variable {α : Type} [Scalar α]

namespace FitnessMatrix

variable (m : FitnessMatrix α)

/-- The first objective of a candidate. -/
def firstOf (i : Nat) : Except Failure α := do
  match ← readAt m i with
  | [] => .error .outOfRange
  | x :: _ => return x

/-- **The front for one objective**: the maximum first, and then who is tied with it. -/
def keepTied (candidates : List Nat) : Except Failure (List Nat) := do
  let values ← candidates.mapM m.firstOf
  let best := values.foldl maxNum negInfinity
  keepIf (fun i => return isEqualWithin defaultTolerance best (← m.firstOf i)) candidates

/-- The candidates in descending lexicographic order. -/
def sortRows (candidates : List Nat) : Except Failure (List Nat) := do
  if 2 ≤ candidates.length then
    let _ ← candidates.mapM (readAt m)
    return Maxima.descending m.row candidates
  else return candidates

/-- Keeps a candidate unless one of those kept dominates it. -/
def keepUndominated (kept : List Nat) (i : Nat) : Except Failure (List Nat) := do
  let isDominated ← anyOf (fun k =>
    return Dominance.compare (← readAt m k) (← readAt m i) = .left) kept
  return if isDominated then kept else kept ++ [i]

/-- Whether a candidate is dominated by one that precedes it. Both have to have a first
objective, which is left out to begin with. -/
def isDominatedFromAbove (lower upper : Nat) : Except Failure Bool := do
  match ← readAt m lower, ← readAt m upper with
  | x :: a, y :: b => return Maxima.isDominatedFromAbove (x :: a) (y :: b)
  | _, _ => .error .outOfRange

/-- **The front of a sorted list**, from the fronts of its halves. -/
def divide (sorted : List Nat) : Except Failure (List Nat) :=
  if sorted.length ≤ 1 then .ok sorted
  else do
    let upper ← divide (sorted.take (sorted.length / 2))
    let lower ← divide (sorted.drop (sorted.length / 2))
    let kept ← keepIf (fun i => return !(← anyOf (m.isDominatedFromAbove i) upper)) lower
    return upper ++ kept
termination_by sorted.length
decreasing_by all_goals grind

end FitnessMatrix

/-- **The front that a finder comes to** among some candidates of a matrix, with every access
checked. -/
def Finder.search (m : FitnessMatrix α) :
    Finder → (candidates : List Nat) → Except Failure (List Nat)
  | .oneObjective, candidates => m.keepTied candidates
  | .sortFilter, candidates => do (← m.sortRows candidates).foldlM m.keepUndominated []
  | .kung, candidates => do m.divide (← m.sortRows candidates)
  | .best, candidates => m.eliminate candidates

end ParetoSelection
