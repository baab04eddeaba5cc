import ParetoSelection.StableSort

/-!
# Ranked fronts and the place where they overflow

Ranking splits the candidates `0 … size - 1` into fronts. The fronts are all
there is: a candidate's rank is the position of the front it lies in, and
reading the fronts one after the other orders the population from best to
worst. A candidate that no front contains counts as rank zero.

A population with room for `target` members takes whole fronts as long as they
fit. The first front that does not is the *critical* one, of which only some
members can stay.
-/

namespace ParetoSelection

/-- **The fronts of a population of `size` candidates**, best front first. -/
structure RankedFronts where
  /-- The number of candidates that were ranked. -/
  size : Nat
  /-- The candidates of each front. -/
  fronts : List (List Nat)
deriving DecidableEq, Repr

/-- **The front that does not fit**, as a range of positions in the order from
best to worst. If every front fits the range is empty and lies at the end. -/
structure CriticalFront where
  /-- The rank of the front, if there is one. -/
  front : Option Nat
  /-- The position of its first member. -/
  first : Nat
  /-- One past the position of its last member. -/
  last : Nat
deriving DecidableEq, Repr

namespace CriticalFront

/-- How many members the front has. -/
def length (p : CriticalFront) : Nat :=
  p.last - p.first

/-- Whether there is no such front. -/
def isEmpty (p : CriticalFront) : Bool :=
  p.first = p.last

/-- The first of the given fronts that reaches beyond `target`, knowing the
rank and the position at which they start. -/
def findFrom (target rank position : Nat) : List (List Nat) → CriticalFront
  | [] => ⟨none, position, position⟩
  | front :: rest =>
    if target < position + front.length then
      ⟨some rank, position, position + front.length⟩
    else
      findFrom target (rank + 1) (position + front.length) rest

/-- **The first front that reaches beyond `target`.** -/
def find (fronts : List (List Nat)) (target : Nat) : CriticalFront :=
  findFrom target 0 0 fronts

end CriticalFront

namespace RankedFronts

/-- **The rank of a candidate**: the position of its front. -/
def rank (r : RankedFronts) (i : Nat) : Nat :=
  (r.fronts.findIdx? (·.contains i)).getD 0

/-- The ranks of all candidates. -/
def ranks (r : RankedFronts) : List Nat :=
  (List.range r.size).map r.rank

/-- Whether nothing was ranked. -/
def isEmpty (r : RankedFronts) : Bool :=
  r.size = 0

/-- **The candidates from best to worst.** -/
def ordered (r : RankedFronts) : List Nat :=
  r.fronts.flatten

/-- The same fronts, each in ascending order. -/
def ascending (r : RankedFronts) : RankedFronts :=
  { r with fronts := r.fronts.map (stableSort fun i j => i ≤ j) }

/-- The front that does not fit into a population of `target` members. -/
def criticalFront (r : RankedFronts) (target : Nat) : CriticalFront :=
  CriticalFront.find r.fronts target

/-- The candidates of all fronts that fit. -/
def complete (r : RankedFronts) (target : Nat) : List Nat :=
  r.ordered.take (r.criticalFront target).first

/-- The candidates of the front that does not fit. -/
def overflowing (r : RankedFronts) (target : Nat) : List Nat :=
  (r.ordered.take (r.criticalFront target).last).drop (r.criticalFront target).first

end RankedFronts

end ParetoSelection
