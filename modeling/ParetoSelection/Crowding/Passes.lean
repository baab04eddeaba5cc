import ParetoSelection.Access
import ParetoSelection.Crowding

/-!
# Crowding distances in passes

All distances are in one array, and every objective makes a pass over it. The members are
visited in ascending order of the objective: the first and the last one have their distance
replaced by infinity, whatever it was, and if the range is positive the others have their
part of the range added to theirs. What an earlier pass has made of a distance is still
there, an infinity included, and is read again by the next one, which visits the members in
another order.
-/

namespace ParetoSelection

open Scalar

variable {α : Type} [Scalar α]

namespace Crowding

/-- Adds its part of the range to the distance of every member that is visited between two
others. -/
def addParts (values : Array α) (range : α) :
    (visited : List Nat) → (distances : Array α) → Except Failure (Array α)
  | p :: q :: r :: visited, distances => do
    let before ← readAt values p
    let after ← readAt values r
    let distance ← readAt distances q
    let distances ← writeAt distances q (distance + (after - before) / range)
    addParts values range (q :: r :: visited) distances
  | _, distances => .ok distances

/-- Replaces the distances of the first and of the last of some members. -/
def markEnds (order : List Nat) (distances : Array α) : Except Failure (Array α) := do
  let distances ← writeAt distances (← readAt order.toArray 0) infinity
  writeAt distances (← readAt order.toArray (order.length - 1)) infinity

/-- The range from the value of the first to that of the last of some members. -/
def rangeOver (values : Array α) (order : List Nat) : Except Failure α := do
  let lowest ← readAt values (← readAt order.toArray 0)
  let highest ← readAt values (← readAt order.toArray (order.length - 1))
  return highest - lowest

/-- **One pass**: an objective, given by the values of the members, is taken into account. -/
def pass (distances values : Array α) : Except Failure (Array α) := do
  let order := ascendingPositions values
  let distances ← markEnds order distances
  let range ← rangeOver values order
  if 0 < range then addParts values range order distances else return distances

end Crowding

namespace FitnessMatrix

/-- An objective of some candidates, one value after the other. -/
def column (m : FitnessMatrix α) (objective : Nat) : List Nat → Except Failure (List α)
  | [] => .ok []
  | i :: candidates => do
    let row ← readAt m i
    let value ← readAt row.toArray objective
    let values ← m.column objective candidates
    return value :: values

/-- **The crowding distances of the members of a front**, pass by pass over the objectives
of its first member. -/
def crowdingPasses (m : FitnessMatrix α) (front : List Nat) : Except Failure (Array α) :=
  if front.length ≤ 2 then .ok (Array.replicate front.length infinity)
  else do
    let row ← readAt m (← readAt front.toArray 0)
    (List.range row.length).foldlM
      (fun distances objective => do
        Crowding.pass distances (← m.column objective front).toArray)
      (Array.replicate front.length 0)

end FitnessMatrix

end ParetoSelection
