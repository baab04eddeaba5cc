import ParetoSelection.Fronts.Basic

/-!
# Ranking by peeling

A front finder takes the front off what remains until nothing remains. This
works for any finder that returns some of the candidates it was given, and at
least one. Only such finders are meant here. With another one the peeling has
no end (`Peeling.run`), and `peel` no meaning: it stops.
-/

namespace ParetoSelection

/-- What remains once a front is taken off. -/
def without (front remaining : List Nat) : List Nat :=
  remaining.filter fun i => !front.contains i

/-- The fronts that a finder takes off a list of candidates, one after the
other. -/
def peel (finder : List Nat → List Nat) (remaining : List Nat) : List (List Nat) :=
  let front := finder remaining
  if (without front remaining).length < remaining.length then
    front :: peel finder (without front remaining)
  else []
termination_by remaining.length

/-- **Ranking by peeling** the candidates `0 … size - 1`. -/
def RankedFronts.ofPeeling (finder : List Nat → List Nat) (size : Nat) : RankedFronts :=
  ⟨size, peel finder (List.range size)⟩

end ParetoSelection
