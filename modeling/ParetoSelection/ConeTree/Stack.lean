import ParetoSelection.Access
import ParetoSelection.ConeTree.Scan
import ParetoSelection.ConeTree.Search

/-!
# Searching the rows

A tree in its rows is searched with a stack of places. The node at the topmost place is
taken off the stack in every turn. If it can have something better than what has been found,
a leaf is looked through, and the two parts of an inner node go onto the stack, the one with
the higher bound on top. The search is over when the stack is empty.

Every place is looked up in the row, and so is every position of a point. A reference to
nothing is a failure. `ConeArena.Searches` relates a stack and what has been found so far to
what there is in the end. There is nothing in it that makes a search come to an end: in a row
with a node that is its own part, none does.
-/

namespace ParetoSelection

open Scalar

variable {α : Type} [Scalar α]

namespace ConeArena

variable (a : ConeArena α) (query : List α)

/-- The node at a place. -/
def nodeAt (place : Nat) : Except Failure (ArenaNode α) :=
  readAt a.nodes.toArray place

/-- Looks at the point at a position. -/
def lookAt (best : Hit α) (i : Nat) : Except Failure (Hit α) := do
  let p ← readAt a.points.toArray i
  return best.improve i (dot query p)

/-- **One turn of a search**, with the node at the topmost place: the places that go onto the
stack, the topmost one first, and what has been found. -/
def turn (queryNorm : α) (place : Nat) (best : Hit α) : Except Failure (List Nat × Hit α) := do
  let n ← a.nodeAt place
  if n.ball.productBound query queryNorm < best.product then return ([], best)
  else
    match n.children with
    | none => return ([], ← (List.range' n.first (n.last - n.first)).foldlM (a.lookAt query) best)
    | some (left, right) =>
      let l ← a.nodeAt left
      let r ← a.nodeAt right
      if l.ball.productBound query queryNorm < r.ball.productBound query queryNorm then
        return ([right, left], best)
      else return ([left, right], best)

/-- **A search from a stack of places to its end.** -/
inductive Searches (queryNorm : α) : (stack : List Nat) → (best found : Hit α) → Prop
  /-- There is no place left. -/
  | done {best : Hit α} : Searches queryNorm [] best best
  /-- The node at the topmost place has its turn. -/
  | next {place : Nat} {stack opened : List Nat} {best best' found : Hit α}
      (hturn : a.turn query queryNorm place best = .ok (opened, best'))
      (hrest : Searches queryNorm (opened ++ stack) best' found) :
      Searches queryNorm (place :: stack) best found

/-- The first point as a hit. -/
def firstHit : Except Failure (Hit α) := do
  let p ← readAt a.points.toArray 0
  return ⟨0, dot query p⟩

/-- **What the search for a query finds**, from the first point and the root on. -/
def Finds (found : Hit α) : Prop :=
  ∃ first, a.firstHit query = .ok first ∧ a.Searches query (norm query) [0] first found

end ConeArena

end ParetoSelection
