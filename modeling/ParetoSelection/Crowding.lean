import ParetoSelection.Fitness
import ParetoSelection.Scalar
import ParetoSelection.StableSort

/-!
# Crowding distance

How isolated a member of a front is. Along each objective the members are put
in ascending order; the first and the last are infinitely isolated, and every
other one gets the gap between its two neighbours, as a part of the whole
range. The contributions of the objectives are added up in order.

An objective without a positive range adds nothing to anyone – but its first
and last member, which are then just the first and last of the list, still
count as boundaries. Fronts of at most two members are all boundary.
-/

namespace ParetoSelection

open Scalar

variable {α : Type} [Scalar α]

namespace Crowding

/-- The positions of a list of values, in ascending order of the values; equal
values keep their order. -/
def ascendingPositions (values : Array α) : List Nat :=
  stableSort (fun p q => totalLE (values.getD p 0) (values.getD q 0)) (List.range values.size)

/-- **What one objective makes of the distance so far** of the member at place
`place` in ascending order. -/
def extend (sorted : Array α) (place : Nat) (distance : α) : α :=
  let last := sorted.size - 1
  let range := sorted.getD last 0 - sorted.getD 0 0
  if place = 0 || place = last then infinity
  else if 0 < range then
    distance + (sorted.getD (place + 1) 0 - sorted.getD (place - 1) 0) / range
  else distance

/-- Takes one objective, given by the values of the members, into account. -/
def addObjective (distances : List α) (values : List α) : List α :=
  let order := ascendingPositions values.toArray
  let sorted := (order.map fun p => values.toArray.getD p 0).toArray
  distances.mapIdx fun p d => extend sorted (order.idxOf p) d

/-- **The crowding distances of a list of rows**, all with `objectives`
objectives or more. -/
def ofRows (objectives : Nat) (rows : List (List α)) : List α :=
  if rows.length ≤ 2 then List.replicate rows.length infinity
  else
    (List.range objectives).foldl
      (fun distances k => addObjective distances (rows.map fun r => r.getD k 0))
      (List.replicate rows.length 0)

end Crowding

namespace FitnessMatrix

/-- The number of objectives of a front's first member. -/
def frontWidth (m : FitnessMatrix α) (front : List Nat) : Nat :=
  match front with
  | [] => 0
  | i :: _ => (m.row i).length

/-- **The crowding distances of the members of a front**, in the order of the
front. -/
def crowdingOf (m : FitnessMatrix α) (front : List Nat) : List α :=
  Crowding.ofRows (m.frontWidth front) (front.map m.row)

/-- Whether the crowding distances of a front need no value that is not there.
A front of at most two members needs none. -/
def hasCrowdingOf (m : FitnessMatrix α) (front : List Nat) : Bool :=
  front.length ≤ 2 ||
    front.head?.all (· < m.size) &&
      (m.frontWidth front = 0 || front.all fun i => m.frontWidth front ≤ (m.row i).length)

/-- The crowding distances of a front of any candidates, or a failure if a
value is needed that is not there. -/
def checkedCrowdingOf (m : FitnessMatrix α) (front : List Nat) : Except Failure (List α) :=
  if m.hasCrowdingOf front then .ok (m.crowdingOf front) else .error .outOfRange

/-- The crowding distances of all candidates, taken as a single front. -/
def checkedCrowding (m : FitnessMatrix α) : Except Failure (List α) :=
  m.checkedCrowdingOf m.candidates

end FitnessMatrix

end ParetoSelection
