import ParetoSelection.ConeTree.Search
import ParetoSelection.Nsga3.Estimates

/-!
# Candidates and their reference directions

Every candidate that can survive is associated with the direction its
normalized row is closest to. All directions have unit length, so the closest
line is the one with the largest inner product, which the cone tree finds. The
squared distance to it is kept, and the rank.

How many members a direction has is its *niche count*.
-/

namespace ParetoSelection

open Scalar

variable {α : Type} [Scalar α]

/-- **What NSGA-III knows of a candidate.** -/
structure Association (α : Type) where
  /-- The position of its front. -/
  rank : Nat
  /-- The position of its direction among the reference directions. -/
  direction : Nat
  /-- Its squared distance to the line along that direction. -/
  distance : α
deriving DecidableEq, Repr

namespace Association

/-- A candidate that has not been associated. -/
def unassociated (rank : Nat) : Association α :=
  ⟨rank, 0, infinity⟩

/-- **The association of a candidate** with the closest direction. -/
def ofRow (e : Estimates α) (directions : ConeTree α) (rank : Nat) (row : List α) :
    Association α :=
  let normalized := e.normalize row
  let hit := directions.find normalized
  ⟨rank, hit.index, lineDistanceSq (directions.point hit.index) normalized⟩

/-- **The associations of all candidates of a matrix**, of which those in
`chosen` are looked up. -/
def table (e : Estimates α) (directions : ConeTree α) (m : FitnessMatrix α) (ranks : List Nat)
    (chosen : List Nat) : Array (Association α) :=
  (ranks.mapIdx fun i rank =>
    if chosen.contains i then ofRow e directions rank (m.row i)
    else unassociated rank).toArray

/-- The association of candidate `i`. -/
def lookUp (table : Array (Association α)) (i : Nat) : Association α :=
  table.getD i (unassociated 0)

/-- **The niche counts** of `directions` directions over some members. -/
def nicheCounts (table : Array (Association α)) (directions : Nat) (members : List Nat) :
    Array Nat :=
  ((List.range directions).map fun d =>
    members.countP fun i => (lookUp table i).direction = d).toArray

end Association

end ParetoSelection
