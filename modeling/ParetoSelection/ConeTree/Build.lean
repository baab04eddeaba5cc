import ParetoSelection.ConeTree.Basic
import ParetoSelection.Fitness

/-!
# Building a cone tree

A run of more than `maxLeafSize` points is split around two anchors that are
far apart: the point furthest from the first one, and the point furthest from
that. Points closer to the first anchor go to the left. If they all land on
one side – copies of one point do – the run is cut in the middle instead, so
both sides always have fewer points.

The points are rearranged within their run: a point that goes to the left
changes places with the first one on the right (`Sides.take`). The left side
thereby keeps its order, and the right side is turned by one place for every
point that passes it. The ball of a node is the ball of its run before that.
-/

namespace ParetoSelection

open Scalar

variable {α : Type} [Scalar α]

namespace ConeTree

/-- The most points that a leaf has. -/
def maxLeafSize : Nat := 8

/-- The point that is furthest from `origin`, the first of them if there are
several. Points at no comparable distance are passed over; if all are, it is
the first point. -/
def furthestFrom (origin : List α) (points : List (List α)) : List α :=
  (points.foldl
    (fun (found : List α × α) p =>
      let d := distanceSq p origin
      if found.2 < d then (p, d) else found)
    (points.headD [], negInfinity)).1

/-- **A run of points with a cut**: the two sides of a split. -/
structure Sides (α : Type) where
  /-- All points, those on the left first. -/
  run : Array (List α)
  /-- How many points are on the left. -/
  cut : Nat

/-- The points closer to the left anchor. -/
def Sides.left (s : Sides α) : List (List α) :=
  s.run.toList.take s.cut

/-- All others. -/
def Sides.right (s : Sides α) : List (List α) :=
  s.run.toList.drop s.cut

/-- Takes the point at position `i` to its side. One that goes to the left
changes places with the first point on the right. -/
def Sides.take (leftAnchor rightAnchor : List α) (s : Sides α) (i : Nat) : Sides α :=
  let p := s.run.getD i []
  if distanceSq leftAnchor p < distanceSq rightAnchor p then
    ⟨s.run.swapIfInBounds i s.cut, s.cut + 1⟩
  else s

/-- The two sides around two anchors. -/
def Sides.around (leftAnchor rightAnchor : List α) (points : List (List α)) : Sides α :=
  (List.range points.length).foldl (Sides.take leftAnchor rightAnchor) ⟨points.toArray, 0⟩

/-- **The split of a run of points.** If all of them are on one side it is cut
in the middle. -/
def Sides.ofPoints (points : List (List α)) : Sides α :=
  let leftAnchor := furthestFrom (points.headD []) points
  let rightAnchor := furthestFrom leftAnchor points
  let sides := Sides.around leftAnchor rightAnchor points
  if sides.cut = 0 ∨ points.length ≤ sides.cut then ⟨points.toArray, points.length / 2⟩
  else sides

/-- No point is lost when a point is taken. -/
theorem Sides.size_take (a b : List α) (s : Sides α) (i : Nat) :
    (s.take a b i).run.size = s.run.size := by
  simp only [Sides.take]
  split <;> simp

/-- No point is lost between the sides. -/
theorem Sides.size_around (a b : List α) (points : List (List α)) :
    (Sides.around a b points).run.size = points.length := by
  have key : ∀ (places : List Nat) (s : Sides α),
      (places.foldl (Sides.take a b) s).run.size = s.run.size := by
    intro places
    induction places with
    | nil => exact fun _ => rfl
    | cons i places ih => exact fun s => (ih _).trans (Sides.size_take a b s i)
  simpa [Sides.around] using key (List.range points.length) ⟨points.toArray, 0⟩

/-- Both sides of a split have a point, if there are two to split. -/
theorem Sides.length_ofPoints (points : List (List α)) (h : 2 ≤ points.length) :
    0 < (Sides.ofPoints points).left.length ∧ 0 < (Sides.ofPoints points).right.length
      ∧ (Sides.ofPoints points).left.length + (Sides.ofPoints points).right.length
        = points.length := by
  have bounds : 0 < (Sides.ofPoints points).cut ∧ (Sides.ofPoints points).cut < points.length
      ∧ (Sides.ofPoints points).run.size = points.length := by
    simp only [Sides.ofPoints]
    split
    · simp
      omega
    · rw [Sides.size_around]
      omega
  simp only [Sides.left, Sides.right, List.length_take, List.length_drop, Array.length_toList]
  omega

/-- **The node over a run of points.** -/
def nodeOf (points : List (List α)) : ConeNode α :=
  if points.length ≤ maxLeafSize then .leaf (Ball.around points) points
  else
    .split (Ball.around points) points.length
      (nodeOf (Sides.ofPoints points).left) (nodeOf (Sides.ofPoints points).right)
termination_by points.length
decreasing_by
  all_goals
    have := Sides.length_ofPoints points (by grind [maxLeafSize])
    omega

/-- **The tree over a set of points**, or why there is none: no points, points
without coordinates, or with different numbers of them. -/
def ofPoints (points : List (List α)) : Except SelectionError (ConeTree α) :=
  (FitnessMatrix.objectiveCount points.toArray).map fun _ => { root := nodeOf points }

end ConeTree

end ParetoSelection
