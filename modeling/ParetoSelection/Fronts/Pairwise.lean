import ParetoSelection.Dominance
import ParetoSelection.Fronts.Basic
import ParetoSelection.Fitness

/-!
# Ranking by counting dominators

Each candidate has the list of those it dominates, and the count of those that
dominate it. The first front is everything with count zero. Taking a front away
lowers the counts of what its members dominate, and the candidates whose count
reaches zero by it form the next front, in the order in which they reach zero.

Lists and counts are written down here for one candidate at a time, and a rank
is where the candidate's front is. The loops that fill them in with a single
comparison for every two candidates, and put down the ranks as they go, give
the same (`FitnessMatrix.CountsOut`).

Dominance with a tolerance is not transitive and can even run in a circle. The
count of a candidate on or behind a circle never reaches zero, and such a
candidate is *lost*: no front contains it.
-/

namespace ParetoSelection

variable {α : Type} [Scalar α]

namespace Pairwise

/-- The candidates that candidate `i` dominates, in ascending order. -/
def dominatedBy (m : FitnessMatrix α) (i : Nat) : List Nat :=
  m.candidates.filter fun j => dominates (m.row i) (m.row j)

/-- How many candidates dominate candidate `j`. -/
def dominatorCount (m : FitnessMatrix α) (j : Nat) : Nat :=
  m.candidates.countP fun i => dominates (m.row i) (m.row j)

/-- **The state while a front is taken away.** -/
structure Release where
  /-- For each candidate, how many of its dominators are not yet in a front. -/
  counts : Array Nat
  /-- The candidates that have reached zero, in that order. -/
  released : List Nat

/-- One dominator of candidate `j` has gone into a front. -/
def Release.lower (s : Release) (j : Nat) : Release :=
  let left := s.counts.getD j 0 - 1
  { counts := s.counts.setIfInBounds j left
    released := if left = 0 then s.released ++ [j] else s.released }

/-- Takes a front away, given what each candidate dominates. -/
def release (beaten : Array (List Nat)) (counts : Array Nat) (front : List Nat) : Release :=
  (front.flatMap fun i => beaten.getD i []).foldl Release.lower ⟨counts, []⟩

/-- The fronts that follow `front`. There are at most as many as there are
candidates, which is the `fuel` to start with. -/
def following (beaten : Array (List Nat)) :
    (fuel : Nat) → (counts : Array Nat) → (front : List Nat) → List (List Nat)
  | 0, _, _ => []
  | fuel + 1, counts, front =>
    let next := release beaten counts front
    if next.released.isEmpty then []
    else next.released :: following beaten fuel next.counts next.released

/-- The candidates that nothing dominates. -/
def firstFront (m : FitnessMatrix α) (counts : Array Nat) : List Nat :=
  m.candidates.filter fun i => counts.getD i 0 = 0

end Pairwise

/-- **Ranking by counting dominators**, each front in the order in which it was
released. -/
def FitnessMatrix.pairwiseFronts (m : FitnessMatrix α) : RankedFronts :=
  if m.isEmpty then ⟨0, []⟩
  else
    let beaten := (m.candidates.map (Pairwise.dominatedBy m)).toArray
    let counts := (m.candidates.map (Pairwise.dominatorCount m)).toArray
    let first := Pairwise.firstFront m counts
    ⟨m.size, first :: Pairwise.following beaten m.size counts first⟩

end ParetoSelection
