import ParetoSelection.ConeTree.Build

/-!
# Building in one scan

The nodes of a tree are kept in a row, and an inner node refers to its two parts by
their places in the row. The row grows while it is scanned: to start with it has one
node, over all points; the scan computes the ball of a node from the points of its run,
and a node with too many of them is split, its run rearranged in place and its two parts
put at the end of the row. The scan is over when it arrives there.

`ConeArena.scan` is what there is after a number of passes. That the scan comes to an
end, and that what it leaves behind is the tree of `ConeTree.nodeOf`, is a matter of
proof.
-/

namespace ParetoSelection

open Scalar

variable {α : Type} [Scalar α]

/-- **A node in its row.** -/
structure ArenaNode (α : Type) where
  /-- The position of the first point of its run. -/
  first : Nat
  /-- One past the position of the last point. -/
  last : Nat
  /-- How far below the root it is. -/
  level : Nat
  /-- The ball around the points of the run. -/
  ball : Ball α
  /-- The places of the two parts of an inner node. -/
  children : Option (Nat × Nat)
deriving DecidableEq, Repr

/-- A node over a run, as it is before the scan has come to it. -/
def ArenaNode.fresh (first last level : Nat) : ArenaNode α :=
  ⟨first, last, level, ⟨[], 0, 0⟩, none⟩

/-- The points from position `first` on replaced by others. -/
def overwrite (points : List (List α)) (first : Nat) (run : List (List α)) : List (List α) :=
  points.take first ++ run ++ points.drop (first + run.length)

/-- **Points and nodes in rows.** -/
structure ConeArena (α : Type) where
  /-- The points. -/
  points : List (List α)
  /-- The nodes over runs of points. -/
  nodes : List (ArenaNode α)
deriving DecidableEq, Repr

namespace ConeArena

/-- A single node over all points. -/
def ofPoints (points : List (List α)) : ConeArena α :=
  ⟨points, [.fresh 0 points.length 0]⟩

/-- The points of a node. -/
def run (a : ConeArena α) (n : ArenaNode α) : List (List α) :=
  (a.points.drop n.first).take (n.last - n.first)

/-- **One pass**: the ball of the node at place `i` is computed, and the node is split if
it has more points than a leaf. -/
def visit (a : ConeArena α) (i : Nat) : ConeArena α :=
  match a.nodes[i]? with
  | none => a
  | some n =>
    let ball := Ball.around (a.run n)
    if n.last - n.first ≤ ConeTree.maxLeafSize then
      ⟨a.points, a.nodes.set i { n with ball }⟩
    else
      let sides := ConeTree.Sides.ofPoints (a.run n)
      let middle := n.first + sides.cut
      let place := a.nodes.length
      ⟨overwrite a.points n.first sides.run.toList,
        a.nodes.set i { n with ball, children := some (place, place + 1) } ++
          [.fresh n.first middle (n.level + 1), .fresh middle n.last (n.level + 1)]⟩

/-- **What there is after some passes.** -/
def scan (points : List (List α)) (passes : Nat) : ConeArena α :=
  (List.range passes).foldl visit (ofPoints points)

/-- The lowest level of a node. -/
def depth (a : ConeArena α) : Nat :=
  (a.nodes.map ArenaNode.level).foldl max 0

end ConeArena

end ParetoSelection
