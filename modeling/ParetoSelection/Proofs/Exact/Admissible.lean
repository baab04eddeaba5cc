import ParetoSelection.Proofs.ConeTree.Scan
import ParetoSelection.Proofs.Exact.Ball

/-!
# Bounds of the nodes of a finished tree

The scan computes the ball of a node when it comes to it. Everything it does afterwards to
the run of that node happens within the run: the node's own split rearranges it, and so do
the splits of the nodes below, each of them a part of it. So when the scan is over the
range of a node has the points that its ball was computed from, in some other order
(`ConeArena.exists_run_of_mem_nodes_scan`), and a ball does not depend on the order to
bound inner products.

Read with exact arithmetic, therefore, the bound of a node holds for every point that is in
its range in the finished tree, whatever the query.
-/

namespace ParetoSelection

namespace Exact

variable {points : List (List EReal)} {dim : ℕ}

/-- **The bounds of a finished tree are admissible.** Over points with real coordinates a
tree is built, and for every node that the scan has made, inner or leaf, every query with
real coordinates and every point that is in the range of the node in the end, the inner
product of the two exceeds that of the query with the center by at most the length of the
query times the radius; the bound of the node is not below it. -/
theorem dot_le_productBound_scan (hne : points ≠ []) (hdim : 0 < dim)
    (hpoints : ArePoints IsReal dim points) :
    ∃ t, ConeTree.ofPoints points = .ok t
      ∧ ConeArena.scan points t.nodeCount = ⟨t.points.toList, t.root.row⟩
      ∧ ∀ node ∈ (ConeArena.scan points t.nodeCount).nodes,
          ∀ query : List EReal, query.length = dim → (∀ x ∈ query, IsReal x) →
          ∀ p ∈ (ConeArena.scan points t.nodeCount).run node,
            dot query p ≤ dot query node.ball.center + norm query * node.ball.radius
              ∧ dot query p ≤ node.ball.productBound query (norm query) := by
  have hbuilt := ConeTree.ofPoints_eq_ok hne hdim fun p hp => (hpoints p hp).1
  refine ⟨_, hbuilt, ConeArena.scan_eq points, fun node hnode query hlen hreal p hp => ?_⟩
  obtain ⟨run, hsub, hball, hperm⟩ := ConeArena.exists_run_of_mem_nodes_scan hnode
  obtain ⟨vs, rfl⟩ := exists_map_coords fun q hq => hpoints q (hsub hq)
  obtain ⟨q, rfl⟩ := exists_coords hlen hreal
  obtain ⟨v, hv, rfl⟩ := List.mem_map.1 (hperm.subset hp)
  rw [hball]
  exact ⟨dot_le_around hv q, dot_le_productBound_around hv q⟩

/-- Nine points on a line. -/
noncomputable def milestones : List (List EReal) :=
  (List.range 9).map fun k => [((k : ℝ) : EReal)]

/-- The bounds of the tree over them, whose root is an inner node. -/
theorem milestones_dot_le_productBound :
    milestones ≠ [] ∧ ArePoints IsReal 1 milestones
      ∧ ∃ t, ConeTree.ofPoints milestones = .ok t ∧ IsTreeRow t.root.row 9
        ∧ ∀ node ∈ t.root.row, ∀ p ∈ (ConeArena.scan milestones t.nodeCount).run node,
            dot [((2 : ℝ) : EReal)] p
              ≤ node.ball.productBound [((2 : ℝ) : EReal)] (norm [((2 : ℝ) : EReal)]) := by
  have hne : milestones ≠ [] := List.ne_nil_of_length_pos (by simp [milestones])
  have hpoints : ArePoints IsReal 1 milestones := by
    intro p hp
    obtain ⟨k, -, rfl⟩ := List.mem_map.1 hp
    refine ⟨rfl, fun x hx => ?_⟩
    rw [List.mem_singleton.1 hx]
    exact isReal_coe k
  obtain ⟨t, ht, hscan, hbounds⟩ := dot_le_productBound_scan hne Nat.one_pos hpoints
  have hrow : IsTreeRow t.root.row 9 := by
    have hlen : (ConeTree.nodeOf milestones).points.length = 9 :=
      (ConeTree.points_nodeOf_perm _).length_eq.trans (by simp [milestones])
    rw [ConeTree.root_of_ofPoints_eq_ok ht, ← hlen]
    exact (ConeTree.isProper_nodeOf (List.length_pos_iff.2 hne)).isTreeRow
  refine ⟨hne, hpoints, t, ht, hrow, fun node hnode p hp => ?_⟩
  refine (hbounds node (by rwa [hscan]) _ rfl (fun x hx => ?_) p hp).2
  rw [List.mem_singleton.1 hx]
  exact isReal_coe 2

end Exact

end ParetoSelection
