import ParetoSelection.Fronts.Pairwise
import ParetoSelection.Fronts.Peeling
import ParetoSelection.Fronts.Rounds
import ParetoSelection.Maxima.Checked

/-!
# Ranking strategies

Which algorithm ranks a population. All of them give the same fronts where
values that differ do so by more than the tolerance; they differ in cost, and
in what they make of a circle of dominance. Within a front the candidates are
in ascending order, whatever the strategy.
-/

namespace ParetoSelection

variable {α : Type} [Scalar α]

/-- **The ranking algorithms.** -/
inductive Strategy where
  /-- Counting dominators over all pairs. -/
  | pairwise
  /-- Peeling with divide and conquer. -/
  | kung
  /-- Peeling with elimination. -/
  | best
  /-- Peeling with the finder that suits the number of objectives. -/
  | auto
deriving DecidableEq, Repr, Inhabited

/-- The finder that a strategy peels with, if it peels. -/
def Strategy.finder (strategy : Strategy) (m : FitnessMatrix α) : Option Finder :=
  match strategy with
  | .pairwise => none
  | .kung => some .kung
  | .best => some .best
  | .auto => some m.finder

/-- **The fronts of a matrix**, each in ascending order. -/
def FitnessMatrix.rankWith (m : FitnessMatrix α) (strategy : Strategy) : RankedFronts :=
  match strategy.finder m with
  | none => m.pairwiseFronts.ascending
  | some finder => (RankedFronts.ofPeeling (finder.run m.row) m.size).ascending

/-- **The fronts of a matrix whose rows have not been looked at.** It fails if the strategy's
finder reads an objective that is not there, or finds nobody among candidates who remain. -/
def FitnessMatrix.checkedRank (m : FitnessMatrix α) (strategy : Strategy) :
    Except Failure RankedFronts :=
  match strategy.finder m with
  | none => .ok m.pairwiseFronts.ascending
  | some finder => do
    let t ← (Peeling.start m.size).run (finder.search m)
    return RankedFronts.ascending ⟨m.size, t.fronts⟩

end ParetoSelection
