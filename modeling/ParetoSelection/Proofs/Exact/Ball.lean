import Mathlib.Data.Set.List
import ParetoSelection.Proofs.ConeTree.BestMatch
import ParetoSelection.Proofs.Corners
import ParetoSelection.Proofs.Exact.Arithmetic

/-!
# Balls bound inner products

Read with exact arithmetic, no inner product of a query with a point of a ball is above
the bound of the ball: the product with the point differs from that with the center by
at most the length of the query times the distance of the two, which is at most the
radius (`dot_le_around`). The slack only adds to that (`le_productBound_around`).

The ball of a node is the one around its run before the run was rearranged. The radius
does not depend on the order of the points, and the center is a mean, so the bound holds
of the points where they are in the end (`dot_le_productBound_of_mem_arena`). Hence a
search finds a point with the largest inner product (`dot_le_dot_find`).
-/

namespace ParetoSelection

namespace Exact

open scoped InnerProductSpace

variable {n : ℕ}

/-- The largest of some numbers is not below any of them. -/
theorem le_foldl_max (a : ℝ) (bs : List ℝ) :
    a ≤ bs.foldl max a ∧ ∀ b ∈ bs, b ≤ bs.foldl max a := by
  induction bs generalizing a with
  | nil => exact ⟨le_refl a, fun b hb => absurd hb List.not_mem_nil⟩
  | cons b bs ih =>
    obtain ⟨hstart, hrest⟩ := ih (max a b)
    rw [List.foldl_cons]
    refine ⟨(le_max_left a b).trans hstart, fun x hx => ?_⟩
    obtain rfl | hx := List.mem_cons.1 hx
    · exact (le_max_right a x).trans hstart
    · exact hrest x hx

/-- The largest squared distance from a center, among some vectors. -/
noncomputable def largestDistanceSq (c : EuclideanSpace ℝ (Fin n))
    (vs : List (EuclideanSpace ℝ (Fin n))) : ℝ :=
  (vs.map fun v => ‖c - v‖ ^ 2).foldl max 0

/-- It is at least the squared distance of any of them. -/
theorem le_largestDistanceSq (c : EuclideanSpace ℝ (Fin n)) {vs : List (EuclideanSpace ℝ (Fin n))}
    {v : EuclideanSpace ℝ (Fin n)} (hv : v ∈ vs) : ‖c - v‖ ^ 2 ≤ largestDistanceSq c vs :=
  (le_foldl_max 0 _).2 _ (List.mem_map_of_mem hv)

/-- **The radius around some vectors.** -/
theorem radiusAround_coords (c : EuclideanSpace ℝ (Fin n))
    (vs : List (EuclideanSpace ℝ (Fin n))) :
    Ball.radiusAround (coords c) (vs.map coords) = ((√(largestDistanceSq c vs) : ℝ) : EReal) := by
  unfold Ball.radiusAround largestDistanceSq
  have hmap : (vs.map coords).map (distanceSq (coords c))
      = (vs.map fun v => ‖c - v‖ ^ 2).map Real.toEReal := by
    rw [List.map_map, List.map_map]
    exact List.map_congr_left fun v _ => distanceSq_coords c v
  rw [hmap]
  exact (congrArg Scalar.sqrt (foldl_maxNum_coe 0 _)).trans (sqrt_coe _)

/-- **The ball around some vectors**: their mean, its length, and the radius. -/
theorem around_coords {vs : List (EuclideanSpace ℝ (Fin n))} (hne : vs ≠ []) :
    ∃ c : EuclideanSpace ℝ (Fin n), Ball.around (vs.map coords)
      = ⟨coords c, ((‖c‖ : ℝ) : EReal), ((√(largestDistanceSq c vs) : ℝ) : EReal)⟩ := by
  have hdim : ((vs.map coords).headD []).length = n := by
    obtain ⟨first, rest, rfl⟩ := List.exists_cons_of_ne_nil hne
    exact length_coords first
  refine ⟨(vs.length : ℝ)⁻¹ • vs.sum, ?_⟩
  unfold Ball.around
  rw [hdim]
  dsimp only
  rw [centroid_coords, radiusAround_coords, norm_coords]

/-- The slack of a ball around some vectors is not negative. -/
theorem le_productBound_around {vs : List (EuclideanSpace ℝ (Fin n))} (hne : vs ≠ [])
    (q : EuclideanSpace ℝ (Fin n)) :
    dot (coords q) (Ball.around (vs.map coords)).center
        + norm (coords q) * (Ball.around (vs.map coords)).radius
      ≤ (Ball.around (vs.map coords)).productBound (coords q) (norm (coords q)) := by
  obtain ⟨c, hball⟩ := around_coords hne
  unfold Ball.productBound
  rw [hball]
  dsimp only
  rw [norm_coords, dot_coords]
  have hslack : 0 ≤ (1e-12 : ℝ) * (1 + ‖q‖ * (‖c‖ + √(largestDistanceSq c vs))) := by
    positivity
  exact EReal.coe_le_coe_iff.2 (le_add_of_nonneg_right hslack)

/-- **The inner product with a point of a ball** exceeds that with the center by at most
the length of the query times the radius. -/
theorem dot_le_around {vs : List (EuclideanSpace ℝ (Fin n))} {v : EuclideanSpace ℝ (Fin n)}
    (hv : v ∈ vs) (q : EuclideanSpace ℝ (Fin n)) :
    dot (coords q) (coords v) ≤ dot (coords q) (Ball.around (vs.map coords)).center
      + norm (coords q) * (Ball.around (vs.map coords)).radius := by
  obtain ⟨c, hball⟩ := around_coords (List.ne_nil_of_mem hv)
  rw [hball]
  dsimp only
  rw [norm_coords, dot_coords, dot_coords]
  have hradius : ‖c - v‖ ≤ √(largestDistanceSq c vs) :=
    Real.le_sqrt_of_sq_le (le_largestDistanceSq c hv)
  generalize √(largestDistanceSq c vs) = ρ at hradius ⊢
  have hproduct : ⟪q, v⟫_ℝ ≤ ⟪q, c⟫_ℝ + ‖q‖ * ρ := by
    calc ⟪q, v⟫_ℝ = ⟪q, c⟫_ℝ + ⟪q, v - c⟫_ℝ := by rw [inner_sub_right, add_sub_cancel]
      _ ≤ ⟪q, c⟫_ℝ + ‖q‖ * ‖v - c‖ := by gcongr; exact real_inner_le_norm q (v - c)
      _ ≤ ⟪q, c⟫_ℝ + ‖q‖ * ρ := by rw [norm_sub_rev]; gcongr
  exact EReal.coe_le_coe_iff.2 hproduct

/-- **The bound of a ball around some vectors is not below the inner product** of the
query with any of them. -/
theorem dot_le_productBound_around {vs : List (EuclideanSpace ℝ (Fin n))}
    {v : EuclideanSpace ℝ (Fin n)} (hv : v ∈ vs) (q : EuclideanSpace ℝ (Fin n)) :
    dot (coords q) (coords v)
      ≤ (Ball.around (vs.map coords)).productBound (coords q) (norm (coords q)) :=
  (dot_le_around hv q).trans (le_productBound_around (List.ne_nil_of_mem hv) q)

/-! ## Trees -/

/-- Points with real coordinates are vectors, one by one. -/
theorem exists_map_coords {points : List (List EReal)} (h : ArePoints IsReal n points) :
    ∃ vs : List (EuclideanSpace ℝ (Fin n)), vs.map coords = points := by
  have hrange : points ∈ Set.range (List.map (coords (n := n))) := by
    rw [Set.range_list_map]
    intro p hp
    obtain ⟨v, hv⟩ := exists_coords (h p hp).1 (h p hp).2
    exact ⟨v, hv.symm⟩
  exact hrange

variable {points : List (List EReal)} {t : ConeTree EReal}

/-- **No product is above the bound of a node** that covers its point, in a tree that is
built over points with real coordinates. -/
theorem dot_le_productBound_of_mem_arena (hpoints : ArePoints IsReal n points)
    (hbuilt : ConeTree.ofPoints points = .ok t) (q : EuclideanSpace ℝ (Fin n))
    {e : ArenaEntry EReal} (he : e ∈ t.arena) {i : ℕ} (hfirst : e.first ≤ i) (hlast : i < e.last) :
    dot (coords q) (t.point i) ≤ e.node.ball.productBound (coords q) (norm (coords q)) := by
  obtain rfl := ConeTree.root_of_ofPoints_eq_ok hbuilt
  obtain ⟨run, hball, hperm, hsubset⟩ := ConeTree.exists_run_of_mem_arenaFrom he
  have hcovers := (ConeTree.coversFrom_root _).of_mem_arenaFrom he
  have hmem := hperm.subset (hcovers.point_mem hfirst hlast)
  obtain ⟨vs, rfl⟩ := exists_map_coords fun p hp => hpoints p (hsubset p hp)
  obtain ⟨v, hv, heq⟩ := List.mem_map.1 hmem
  rw [hball, ← heq]
  exact dot_le_productBound_around hv q

/-- **A search finds a point with the largest inner product**, in a tree that is built
over points with real coordinates. -/
theorem dot_le_dot_find (hpoints : ArePoints IsReal n points)
    (hbuilt : ConeTree.ofPoints points = .ok t) (q : EuclideanSpace ℝ (Fin n)) {i : ℕ}
    (hi : i < t.size) :
    dot (coords q) (t.point i) ≤ dot (coords q) (t.point (t.find (coords q)).index) := by
  have hbest := ConeTree.isBestOf_find isKeyed_id (fun _ _ _ _ => trivial)
    (ConeTree.isSearchable_ofPoints hbuilt) (fun _ _ => trivial)
    fun e he i hfirst hlast =>
      not_lt.2 (dot_le_productBound_of_mem_arena hpoints hbuilt q he hfirst hlast)
  rw [← hbest.product_eq]
  exact (hbest.key_le_and_lt hi).1

end Exact

end ParetoSelection
