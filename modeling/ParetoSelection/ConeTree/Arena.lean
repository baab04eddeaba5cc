import ParetoSelection.ConeTree.Build

/-!
# The nodes of a tree, in a row

The nodes of a cone tree listed in one row: a node comes before everything
below it, and everything below its left part before everything below its right
part. Each entry knows the run of points that its node covers and, for an inner
node, at which positions of the row its two parts are.

Statements about *every node* of a tree – that its run has so many points, that
its ball bounds them – are statements about the entries of this list.
-/

namespace ParetoSelection

variable {α : Type} [Scalar α]

/-- **A node of a tree in its place.** -/
structure ArenaEntry (α : Type) where
  /-- The node. -/
  node : ConeNode α
  /-- The position of the first point that the node covers. -/
  first : Nat
  /-- The places of the two parts of an inner node. -/
  children : Option (Nat × Nat)

/-- One past the position of the last point that the node covers. -/
def ArenaEntry.last (e : ArenaEntry α) : Nat :=
  e.first + e.node.points.length

/-- The node and all nodes below it, given the position of its first point and
its own place. -/
def ConeNode.arenaFrom : (node : ConeNode α) → (first place : Nat) → List (ArenaEntry α)
  | .leaf ball points, first, _ => [⟨.leaf ball points, first, none⟩]
  | .split ball size left right, first, place =>
    ⟨.split ball size left right, first, some (place + 1, place + 1 + left.nodeCount)⟩ ::
      (left.arenaFrom first (place + 1) ++
        right.arenaFrom (first + left.points.length) (place + 1 + left.nodeCount))

/-- **All nodes of a tree.** -/
def ConeTree.arena (t : ConeTree α) : List (ArenaEntry α) :=
  t.root.arenaFrom 0 0

omit [Scalar α] in
/-- There are as many entries as nodes. -/
theorem ConeNode.length_arenaFrom (node : ConeNode α) (first place : Nat) :
    (node.arenaFrom first place).length = node.nodeCount := by
  induction node generalizing first place with
  | leaf => rfl
  | split _ _ left right ihl ihr =>
    simp [arenaFrom, nodeCount, ihl, ihr]
    omega

/-- The number of points that a built node keeps is the number it covers. -/
theorem ConeTree.size_nodeOf (points : List (List α)) :
    (ConeTree.nodeOf points).size = points.length := by
  rw [ConeTree.nodeOf]
  split <;> rfl

end ParetoSelection
