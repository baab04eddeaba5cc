import ParetoSelection.ConeTree.Basic

/-!
# The largest inner product

The point of a tree whose inner product with a query is largest, and of
several such points the one at the lowest position. The search starts from the
first point and goes down the tree, on each inner node into the side with the
higher bound first; a node whose bound is below the best product so far is
skipped. The plain scan over all points, `findLinear`, is what the search is
measured by.

The search is a recursion over the nodes. `ConeArena.Searches` is the same
search with a stack of places in the rows of a tree.
-/

namespace ParetoSelection

open Scalar

variable {α : Type} [Scalar α]

/-- **A point that was found.** -/
structure Hit (α : Type) where
  /-- The position of the point. -/
  index : Nat
  /-- Its inner product with the query. -/
  product : α
deriving DecidableEq, Repr

namespace Hit

/-- The better of a hit and the point at `index`. Of two points with the same
product the one at the lower position is better. -/
def improve (best : Hit α) (index : Nat) (product : α) : Hit α :=
  if best.product < product || (product == best.product && index < best.index) then
    ⟨index, product⟩
  else best

/-- Looks at the points from position `first` on. -/
def scanFrom (query : List α) (first : Nat) (points : List (List α)) (best : Hit α) : Hit α :=
  (points.zipIdx first).foldl (fun best (p, i) => best.improve i (dot query p)) best

end Hit

/-- The best hit of a node whose points start at position `first`, or the one
that was there before. -/
def ConeNode.search (query : List α) (queryNorm : α) :
    (node : ConeNode α) → (first : Nat) → (best : Hit α) → Hit α
  | .leaf ball points, first, best =>
    if ball.productBound query queryNorm < best.product then best
    else best.scanFrom query first points
  | .split ball _ left right, first, best =>
    if ball.productBound query queryNorm < best.product then best
    else if left.ball.productBound query queryNorm < right.ball.productBound query queryNorm then
      left.search query queryNorm first
        (right.search query queryNorm (first + left.size) best)
    else
      right.search query queryNorm (first + left.size)
        (left.search query queryNorm first best)

namespace ConeTree

/-- The first point as a hit, which every search starts from. -/
def firstHit (t : ConeTree α) (query : List α) : Hit α :=
  ⟨0, dot query (t.point 0)⟩

/-- **The best hit, by searching the tree.** -/
def find (t : ConeTree α) (query : List α) : Hit α :=
  t.root.search query (norm query) 0 (t.firstHit query)

/-- **The best hit, by looking at every point**: the first of those with the
largest product. -/
def findLinear (t : ConeTree α) (query : List α) : Hit α :=
  (t.points.toList.zipIdx.drop 1).foldl
    (fun best (p, i) =>
      let product := dot query p
      if best.product < product then ⟨i, product⟩ else best)
    (t.firstHit query)

end ConeTree

end ParetoSelection
