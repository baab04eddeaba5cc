import ParetoSelection.Geometry

/-!
# Trees of balls

A cone tree arranges a set of points so that the one with the largest inner
product with a query is found without looking at all of them. Every node
covers a run of the points and knows a ball around them; a leaf holds its
points, an inner node splits its run into a left and a right part.

The points of the tree, in the order of the leaves from left to right, are the
order in which positions are counted.

A query `q` cannot have an inner product above `⟨q, center⟩ + ‖q‖ · radius`
with a point of a ball. Computed numbers are rounded, and `Ball.productBound`
adds a slack on the scale of the numbers involved.
-/

namespace ParetoSelection

open Scalar

variable {α : Type} [Scalar α]

/-- **A ball around some points.** -/
structure Ball (α : Type) where
  /-- The mean of the points. -/
  center : List α
  /-- The length of the center. -/
  centerNorm : α
  /-- The largest distance of a point from the center. -/
  radius : α
deriving DecidableEq, Repr

namespace Ball

/-- The slack of a bound, relative to the numbers it is computed from. -/
def slack : α := 1e-12

/-- The largest distance of a point from a center, at least zero. -/
def radiusAround (center : List α) (points : List (List α)) : α :=
  sqrt ((points.map (distanceSq center)).foldl maxNum 0)

/-- **The ball around the mean of some points.** -/
def around (points : List (List α)) : Ball α :=
  let center := centroid (points.headD []).length points
  ⟨center, norm center, radiusAround center points⟩

/-- **A bound on the inner product** of a query with a point of the ball. -/
def productBound (ball : Ball α) (query : List α) (queryNorm : α) : α :=
  let bound := dot query ball.center + queryNorm * ball.radius
  bound + slack * (1 + queryNorm * (ball.centerNorm + ball.radius))

end Ball

/-- **A node of a cone tree**, with everything below it. -/
inductive ConeNode (α : Type) where
  /-- A run of points that is not split any further. -/
  | leaf (ball : Ball α) (points : List (List α))
  /-- A run of `size` points, split in two. -/
  | split (ball : Ball α) (size : Nat) (left right : ConeNode α)
deriving DecidableEq, Repr

namespace ConeNode

/-- The ball around the points of a node. -/
def ball : ConeNode α → Ball α
  | leaf ball _ => ball
  | split ball _ _ _ => ball

/-- How many points the node covers. -/
def size : ConeNode α → Nat
  | leaf _ points => points.length
  | split _ size _ _ => size

/-- **The points below a node**, from left to right. -/
def points : ConeNode α → List (List α)
  | leaf _ points => points
  | split _ _ left right => left.points ++ right.points

/-- The number of nodes, the node itself included. -/
def nodeCount : ConeNode α → Nat
  | leaf _ _ => 1
  | split _ _ left right => 1 + left.nodeCount + right.nodeCount

/-- The number of leaves. -/
def leafCount : ConeNode α → Nat
  | leaf _ _ => 1
  | split _ _ left right => left.leafCount + right.leafCount

/-- The length of the longest path down to a leaf. -/
def depth : ConeNode α → Nat
  | leaf _ _ => 0
  | split _ _ left right => 1 + max left.depth right.depth

end ConeNode

/-- **A cone tree.** -/
structure ConeTree (α : Type) where
  /-- The node that covers all points. -/
  root : ConeNode α
  /-- The points, in tree order. -/
  points : Array (List α) := root.points.toArray
  /-- They are the points below the root. -/
  points_eq : points = root.points.toArray := by rfl
deriving DecidableEq, Repr

namespace ConeTree

/-- The point at a position. -/
def point (t : ConeTree α) (i : Nat) : List α := t.points.getD i []

/-- The number of points. -/
def size (t : ConeTree α) : Nat := t.points.size

/-- Whether the tree has no point. -/
def isEmpty (t : ConeTree α) : Bool := t.size = 0

/-- The number of nodes. -/
def nodeCount (t : ConeTree α) : Nat := t.root.nodeCount

/-- The length of the longest path from the root to a leaf. -/
def depth (t : ConeTree α) : Nat := t.root.depth

end ConeTree

end ParetoSelection
