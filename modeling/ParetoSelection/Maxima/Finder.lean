import ParetoSelection.Maxima.Kung
import ParetoSelection.Maxima.Best
import ParetoSelection.Fitness

/-!
# Finding the front of a matrix

The four finders under one name, on candidates of a fitness matrix. A finder
that never has to read a row answers even for candidates that do not exist: a
list of at most one candidate is its own front for every finder but the one
for a single objective, which always reads. All others fail on a candidate
outside the matrix (`Finder.find`).
-/

namespace ParetoSelection

variable {α : Type} [Scalar α]

/-- **The front finders.** -/
inductive Finder where
  /-- All candidates tied with the maximum of the only objective. -/
  | oneObjective
  /-- A filter along the lexicographic order. -/
  | sortFilter
  /-- Divide and conquer. -/
  | kung
  /-- Elimination. -/
  | best
deriving DecidableEq, Repr

namespace Finder

/-- **The front that a finder returns.** -/
def run {ι : Type} (row : ι → List α) : Finder → List ι → List ι
  | oneObjective => Maxima.oneObjective row
  | sortFilter => Maxima.sortFilter row
  | kung => Maxima.kung row
  | best => Maxima.best row

/-- Whether the finder reads only what is there. -/
def isDefinedOn (m : FitnessMatrix α) (candidates : List Nat) : Finder → Bool
  | oneObjective => candidates.all fun i => i < m.size && !(m.row i).isEmpty
  | sortFilter | best => candidates.length ≤ 1 || candidates.all fun i => i < m.size
  | kung =>
    candidates.length ≤ 1 || candidates.all fun i => i < m.size && !(m.row i).isEmpty

/-- **The front of some candidates of a matrix**, or a failure if the finder
would read outside it. -/
def find (finder : Finder) (m : FitnessMatrix α) (candidates : List Nat) :
    Except Failure (List Nat) :=
  if finder.isDefinedOn m candidates then .ok (finder.run m.row candidates)
  else .error .outOfRange

end Finder

/-- The finder for all candidates of a matrix: the one for a single objective
where the first row has one, divide and conquer otherwise. -/
def FitnessMatrix.finder (m : FitnessMatrix α) : Finder :=
  if m.width = 1 then .oneObjective else .kung

/-- **The Pareto front of a matrix.** -/
def FitnessMatrix.paretoFront (m : FitnessMatrix α) : Except Failure (List Nat) :=
  m.finder.find m m.candidates

end ParetoSelection
