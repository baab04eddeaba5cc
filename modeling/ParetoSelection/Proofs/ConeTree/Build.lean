import Mathlib.Data.List.Perm.Basic
import ParetoSelection.ConeTree.Arena
import ParetoSelection.Proofs.Fitness

/-!
# A built tree has the points it is built from

Splitting a run rearranges it, and so does everything that is split further down; no
point is lost and none comes in. The ball of a node, on the other hand, is computed
from the run as it was *before* it was split. That is a rearrangement of the points
that the node has in the end, for a split further down moves points only within its
own run. So every node of a tree has the ball around some order of its own points
(`exists_run_of_mem_arenaFrom`).
-/

namespace ParetoSelection

variable {α : Type} [Scalar α]

namespace ConeTree

/-! ## Splitting a run -/

/-- Taking a point to its side rearranges the run. -/
theorem Sides.run_take_perm (a b : List α) (s : Sides α) (i : Nat) :
    (s.take a b i).run.toList.Perm s.run.toList := by
  unfold Sides.take Array.swapIfInBounds
  dsimp only
  split
  · split
    · split
      · exact (Array.swap_perm _ _).toList
      · exact List.Perm.refl _
    · exact List.Perm.refl _
  · exact List.Perm.refl _

/-- So does taking all points to their sides. -/
theorem Sides.run_around_perm (a b : List α) (points : List (List α)) :
    (Sides.around a b points).run.toList.Perm points := by
  have hfold (places : List Nat) (s : Sides α) :
      (places.foldl (Sides.take a b) s).run.toList.Perm s.run.toList := by
    induction places generalizing s with
    | nil => exact List.Perm.refl _
    | cons i places ih => exact (ih _).trans (Sides.run_take_perm a b s i)
  exact hfold _ ⟨points.toArray, 0⟩

/-- **The two sides of a split have the points of the run.** -/
theorem Sides.left_append_right_perm (points : List (List α)) :
    ((Sides.ofPoints points).left ++ (Sides.ofPoints points).right).Perm points := by
  unfold Sides.left Sides.right
  rw [List.take_append_drop]
  unfold Sides.ofPoints
  dsimp only
  split
  · exact List.Perm.refl _
  · exact Sides.run_around_perm _ _ points

/-! ## Building a node -/

/-- **A node has the points that it is built from.** -/
theorem points_nodeOf_perm (points : List (List α)) : (nodeOf points).points.Perm points := by
  fun_induction nodeOf points with
  | case1 points h => exact List.Perm.refl _
  | case2 points h ihl ihr => exact (ihl.append ihr).trans (Sides.left_append_right_perm points)

/-- **Every node has the ball around its own points**, in some order, and they are
among the points that the tree is built from. -/
theorem exists_run_of_mem_arenaFrom {points : List (List α)} {first place : Nat}
    {e : ArenaEntry α} (he : e ∈ (nodeOf points).arenaFrom first place) :
    ∃ run, e.node.ball = Ball.around run ∧ e.node.points.Perm run ∧ ∀ p ∈ run, p ∈ points := by
  fun_induction nodeOf points generalizing first place with
  | case1 points h =>
    obtain rfl := List.mem_singleton.1 he
    exact ⟨points, rfl, List.Perm.refl _, fun p hp => hp⟩
  | case2 points h ihl ihr =>
    have hsides := Sides.left_append_right_perm points
    obtain rfl | he := List.mem_cons.1 he
    · exact ⟨points, rfl, ((points_nodeOf_perm _).append (points_nodeOf_perm _)).trans hsides,
        fun p hp => hp⟩
    · obtain he | he := List.mem_append.1 he
      · obtain ⟨run, hball, hperm, hsub⟩ := ihl he
        exact ⟨run, hball, hperm, fun p hp =>
          hsides.subset (List.mem_append_left _ (hsub p hp))⟩
      · obtain ⟨run, hball, hperm, hsub⟩ := ihr he
        exact ⟨run, hball, hperm, fun p hp =>
          hsides.subset (List.mem_append_right _ (hsub p hp))⟩

/-! ## Building a tree -/

/-- What is built is the node over the points. -/
theorem root_of_ofPoints_eq_ok {points : List (List α)} {t : ConeTree α}
    (h : ConeTree.ofPoints points = .ok t) : t = { root := nodeOf points } := by
  unfold ofPoints at h
  cases hcount : FitnessMatrix.objectiveCount points.toArray with
  | error e =>
    rw [hcount] at h
    cases h
  | ok dim =>
    rw [hcount] at h
    exact (Except.ok.inj h).symm

/-- **A tree has the points that it is built from.** -/
theorem points_perm_of_ofPoints_eq_ok {points : List (List α)} {t : ConeTree α}
    (h : ConeTree.ofPoints points = .ok t) : t.points.toList.Perm points := by
  rw [root_of_ofPoints_eq_ok h]
  exact points_nodeOf_perm points

/-- **Points of equal dimension can be built over.** -/
theorem ofPoints_eq_ok {points : List (List α)} {dim : Nat} (hne : points ≠ []) (hdim : 0 < dim)
    (h : ∀ p ∈ points, p.length = dim) :
    ConeTree.ofPoints points = .ok { root := nodeOf points } := by
  unfold ofPoints
  rw [FitnessMatrix.objectiveCount_eq_ok (m := points.toArray) (List.length_pos_iff.2 hne)
    (fun p hp => h p (List.mem_toArray.1 hp)) hdim]
  rfl

end ConeTree

end ParetoSelection
