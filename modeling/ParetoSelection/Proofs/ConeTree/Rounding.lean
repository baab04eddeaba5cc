import ParetoSelection.Proofs.ConeTree.BestMatch
import ParetoSelection.Proofs.ConeTree.Build
import ParetoSelection.Proofs.ConeTree.Slack
import ParetoSelection.Proofs.Corners

/-!
# Rounding and the bounds of a tree

A search skips a node whose bound is below the best product so far, and finds what it
should as long as no bound is below the product with a point of its node. Whether that holds
is a question of how large the numbers are.

* Where a length overflows, the bound does too, and nothing is above it
  (`isPeak_productBound`).
* Where the lengths of the query and the radius are finite and at most `2 ^ 489`
  (`IsMeasurable`), the slack covers everything that is rounded
  (`not_productBound_lt_dot`). How small the coordinates are does not matter.
* In between it may fail: the squares of the coordinates of a small ball vanish, its radius
  is zero, and a query that is long enough tells its points apart (`tinyBall_find`).
-/

namespace ParetoSelection

namespace Binary64

/-- The longest length with which vanished squares do not matter, `2 ^ 489`. -/
def lengthLimit : Binary64 := ⟨0x5e80000000000000⟩

/-- **A length that can be relied on**: it is at most `2 ^ 489` if it is finite. -/
def IsMeasurable (x : Binary64) : Prop :=
  x.IsFinite → x ≤ lengthLimit

instance (x : Binary64) : Decidable x.IsMeasurable :=
  inferInstanceAs (Decidable (_ → _))

/-- The limit as a number. -/
theorem value_lengthLimit : lengthLimit.IsFinite ∧ lengthLimit.value = safeLength := by
  have hfin : lengthLimit.IsFinite := by decide
  have hsig : lengthLimit.significand = 2 ^ 52 := by decide
  have hexp : lengthLimit.exponent = 437 := by decide
  have hsign : lengthLimit.sign = .positive := rfl
  have hone : ((Float.Model.UnpackedFloat.Sign.positive.apply (2 ^ 52 : ℕ) : ℤ) : ℝ)
      = 2 ^ (52 : ℤ) := by
    norm_num [Float.Model.UnpackedFloat.Sign.apply]
  refine ⟨hfin, ?_⟩
  rw [hfin.value_eq, hsig, hexp, hsign, hone]
  exact (zpow_add₀ two_ne_zero 52 437).symm

/-- A length that can be relied on is not long. -/
theorem IsMeasurable.value_le {x : Binary64} (h : x.IsMeasurable) (hx : x.IsFinite) :
    x.value ≤ safeLength := by
  obtain ⟨hlimit, hvalue⟩ := value_lengthLimit
  rw [← hvalue]
  exact value_le_value hx hlimit ((le_iff hx.isNumber hlimit.isNumber).1 (h hx))

/-! ## Bounds that overflow -/

/-- The lengths of a ball around some points are roots. -/
theorem isUnsigned_around (run : List (List Binary64)) :
    IsUnsigned (Ball.around run).centerNorm.reading
      ∧ IsUnsigned (Ball.around run).radius.reading :=
  ⟨isUnsigned_sqrt _, isUnsigned_sqrt _⟩

/-- **A bound is above everything as soon as one of its lengths overflows.** -/
theorem isPeak_productBound {ball : Ball Binary64} (query : List Binary64) {qn : Binary64}
    (hq : IsUnsigned qn.reading) (hc : IsUnsigned ball.centerNorm.reading)
    (hr : IsUnsigned ball.radius.reading)
    (h : ¬ (qn.IsFinite ∧ ball.centerNorm.IsFinite ∧ ball.radius.IsFinite)) :
    IsPeak (ball.productBound query qn).reading := by
  have hslack : IsUnsigned (Ball.slack : Binary64).reading :=
    isUnsigned_reading (by decide +kernel) (by decide +kernel)
  have hproduct : IsPeak (qn * (ball.centerNorm + ball.radius)).reading := by
    by_cases hfin : qn.IsFinite
    · refine (isPeak_mul (isPeak_add ?_) hq).2
      by_cases hfin' : ball.centerNorm.IsFinite
      · exact .inr (isPeak_of_isUnsigned hr fun hfin'' => h ⟨hfin, hfin', hfin''⟩)
      · exact .inl (isPeak_of_isUnsigned hc hfin')
    · exact (isPeak_mul (isPeak_of_isUnsigned hq hfin) (isUnsigned_add hc hr)).1
  exact isPeak_add (.inr (isPeak_mul (isPeak_add (.inr hproduct)) hslack).2)

/-! ## The ball around some points -/

variable {n : ℕ}

/-- A list of a given length has coordinates. -/
theorem exists_ofFn {p : List Binary64} (h : p.length = n) :
    ∃ f : Fin n → Binary64, p = List.ofFn f := by
  subst h
  exact ⟨p.get, (List.ofFn_get p).symm⟩

/-- The mean of some points has as many coordinates as they have. -/
theorem length_centroid {points : List (List Binary64)} (h : ∀ p ∈ points, p.length = n) :
    (centroid n points).length = n := by
  unfold centroid
  rw [List.length_map]
  refine length_foldl_zipWith fun p hp => ?_
  obtain rfl | hp := List.mem_cons.1 hp
  · exact List.length_replicate
  · exact h p hp

section Vectors

variable {q c p : Fin n → Binary64} {y : Binary64}

/-- **Computed lengths that can be relied on are measured**: those of a query and of a
center, and the radius, if the squared distance of the point is not above that of the
radius. -/
theorem areMeasured_of_isFinite (hn : n ≤ 2000) (hp : ∀ k, (p k).IsFinite)
    (hqn : (norm (List.ofFn q)).IsFinite) (hcn : (norm (List.ofFn c)).IsFinite)
    (hr : (Scalar.sqrt y).IsFinite) (hq : (norm (List.ofFn q)).IsMeasurable)
    (hrad : (Scalar.sqrt y).IsMeasurable)
    (hdist : (distanceSq (List.ofFn c) (List.ofFn p)).grade ≤ y.grade) :
    AreMeasured (norm (List.ofFn q)) (norm (List.ofFn c)) (Scalar.sqrt y)
      ‖vec q‖ ‖vec c‖ ‖vec c - vec p‖ := by
  obtain ⟨hcfin, hm⟩ := norm_vec_le_norm hn hcn
  obtain ⟨hy, -⟩ := isFinite_of_isFinite_sqrt hr
  obtain ⟨-, hgrade⟩ := isNumber_distanceSq (List.forall_mem_ofFn_iff.2 hcfin)
    (List.forall_mem_ofFn_iff.2 hp)
  -- the squared distance does not overflow, for what is not below it has a root
  have hdfin := isFinite_of_grade_le hgrade hdist hy
  exact
    { isFinite_query := hqn
      isFinite_center := hcn
      isFinite_radius := hr
      query_nonneg := value_nonneg_of_isUnsigned (isUnsigned_sqrt _)
      center_nonneg := value_nonneg_of_isUnsigned (isUnsigned_sqrt _)
      radius_nonneg := value_nonneg_of_isUnsigned (isUnsigned_sqrt _)
      query_le := hq.value_le hqn
      center_le := value_sqrt_le hcn
      radius_le := hrad.value_le hr
      query_length_le := (norm_vec_le_norm hn hqn).2
      center_length_le := hm
      distance_le := norm_sub_vec_le_sqrt hn hcfin hp hdfin (value_le_value hdfin hy hdist) hr }

open scoped InnerProductSpace in
/-- A product changes by at most the length of the query times the way to the point. -/
theorem inner_le_inner_add_norm_mul (u v w : EuclideanSpace ℝ (Fin n)) :
    ⟪u, w⟫_ℝ ≤ ⟪u, v⟫_ℝ + ‖u‖ * ‖v - w‖ :=
  calc ⟪u, w⟫_ℝ = ⟪u, v⟫_ℝ + ⟪u, w - v⟫_ℝ := by rw [inner_sub_right, add_sub_cancel]
    _ ≤ ⟪u, v⟫_ℝ + ‖u‖ * ‖v - w‖ := by
        rw [norm_sub_rev v w]
        gcongr
        exact real_inner_le_norm _ _

open scoped InnerProductSpace in
/-- **No product of finite lengths is above the bound**, whatever the center is. -/
theorem not_productBound_lt_of_isFinite (hn : n ≤ 2000) (hp : ∀ k, (p k).IsFinite)
    (hqn : (norm (List.ofFn q)).IsFinite) (hcn : (norm (List.ofFn c)).IsFinite)
    (hr : (Scalar.sqrt y).IsFinite) (hq : (norm (List.ofFn q)).IsMeasurable)
    (hrad : (Scalar.sqrt y).IsMeasurable)
    (hdist : (distanceSq (List.ofFn c) (List.ofFn p)).grade ≤ y.grade) :
    ¬ (Ball.mk (List.ofFn c) (norm (List.ofFn c)) (Scalar.sqrt y)).productBound (List.ofFn q)
        (norm (List.ofFn q)) < dot (List.ofFn q) (List.ofFn p) := by
  have hmeasured := areMeasured_of_isFinite hn hp hqn hcn hr hq hrad hdist
  have hm0 := norm_nonneg (vec c)
  have hd0 := norm_nonneg (vec c - vec p)
  have hld0 := mul_nonneg (norm_nonneg (vec q)) hd0
  have hfar : ‖vec q‖ * ‖vec p‖ ≤ ‖vec q‖ * ‖vec c‖ + ‖vec q‖ * ‖vec c - vec p‖ := by
    rw [← mul_add]
    gcongr
    exact norm_le_insert (vec c) (vec p)
  -- neither product overflows, so both are close to the exact ones
  have hover := hmeasured.query_mul_add_le_overflow hm0 hd0
  have hdc := isFinite_dot hn (norm_vec_le_norm hn hqn).1 (norm_vec_le_norm hn hcn).1
    (by linarith)
  have hdp := isFinite_dot hn (norm_vec_le_norm hn hqn).1 hp (by linarith)
  have hclose := (abs_le.1 (abs_value_dot_sub_le hn hdp).2).2
  have hfar' := mul_le_mul_of_nonneg_left hfar dotRoundoff_pos.le
  have hnear : (dot (List.ofFn q) (List.ofFn p)).value ≤ ⟪vec q, vec p⟫_ℝ
      + (dotRoundoff * (‖vec q‖ * ‖vec c‖ + ‖vec q‖ * ‖vec c - vec p‖) + dotUnderflow) := by
    linarith
  obtain ⟨hbound, habove⟩ := hmeasured.value_lt_bound (norm_nonneg _) hm0 hd0
    (abs_real_inner_le_norm _ _) (inner_le_inner_add_norm_mul _ _ _)
    ⟨hdc, (abs_value_dot_sub_le hn hdc).2⟩ hnear
  intro hlt
  have hgrade := (lt_iff hbound.isNumber hdp.isNumber).1 hlt
  exact absurd habove (not_lt.2 (value_le_value hbound hdp (Int.le_of_lt hgrade)))

end Vectors

/-- **No product with one of some points is above the bound of the ball around them.** -/
theorem not_productBound_around_lt (hn : n ≤ 2000) {run : List (List Binary64)}
    {query p : List Binary64} (hrun : ArePoints IsFinite n run) (hp : p ∈ run)
    (hlength : query.length = n) (hq : (norm query).IsMeasurable)
    (hr : (Ball.around run).radius.IsMeasurable) :
    ¬ (Ball.around run).productBound query (norm query) < dot query p := by
  by_cases hfin : (norm query).IsFinite ∧ (Ball.around run).centerNorm.IsFinite
      ∧ (Ball.around run).radius.IsFinite
  · have hdim : (run.headD []).length = n := by
      obtain ⟨first, rest, rfl⟩ := List.exists_cons_of_ne_nil (List.ne_nil_of_mem hp)
      exact (hrun first List.mem_cons_self).1
    unfold Ball.around Ball.radiusAround at hfin hr ⊢
    rw [hdim] at hfin hr ⊢
    dsimp only at hfin hr ⊢
    obtain ⟨hqn, hcn, hrad⟩ := hfin
    -- that the center is the mean of the points plays no part from here on
    obtain ⟨c, hc⟩ := exists_ofFn (length_centroid fun p hp => (hrun p hp).1)
    obtain ⟨f, rfl⟩ := exists_ofFn (hrun p hp).1
    obtain ⟨q, rfl⟩ := exists_ofFn hlength
    rw [hc] at hcn hr hrad ⊢
    have hcfin := List.forall_mem_ofFn_iff.2 (norm_vec_le_norm hn hcn).1
    have hdistances : ∀ d ∈ run.map (distanceSq (List.ofFn c)), d.IsNumber := by
      intro d hd
      obtain ⟨v, hv, rfl⟩ := List.mem_map.1 hd
      exact (isNumber_distanceSq hcfin (hrun v hv).2).1
    have hzero : (0 : Binary64).IsNumber := by decide
    exact not_productBound_lt_of_isFinite hn (List.forall_mem_ofFn_iff.1 (hrun _ hp).2) hqn hcn
      hrad hq hr ((isKeyed_grade.le_key_foldl_maxNum hzero hdistances).2 _
        (List.mem_map_of_mem hp))
  · obtain ⟨hcenter, hradius⟩ := isUnsigned_around run
    exact not_lt_of_isPeak (isPeak_productBound query (isUnsigned_sqrt _) hcenter hradius hfin) _

end Binary64

namespace ConeTree

/-- **Rounding does not prune the true answer**, in up to 2000 dimensions. Over any points
with finite coordinates there is a tree, and a query whose length can be relied on has no
product with a point of a node above the bound of the node, if the radius of the node can be
relied on. -/
theorem not_productBound_lt_dot {points : List (List Binary64)} {dim : ℕ} (hne : points ≠ [])
    (hpos : 0 < dim) (hdim : dim ≤ 2000) (hpoints : ArePoints Binary64.IsFinite dim points) :
    ∃ t, ConeTree.ofPoints points = .ok t ∧
      ∀ query : List Binary64, query.length = dim → (norm query).IsMeasurable →
        ∀ e ∈ t.arena, e.node.ball.radius.IsMeasurable → ∀ i, e.first ≤ i → i < e.last →
          ¬ e.node.ball.productBound query (norm query) < dot query (t.point i) := by
  refine ⟨_, ofPoints_eq_ok hne hpos fun p hp => (hpoints p hp).1, ?_⟩
  intro query hlength hquery e he hradius i hfirst hlast
  obtain ⟨run, hball, hperm, hsubset⟩ := exists_run_of_mem_arenaFrom he
  have hcovers := (coversFrom_root _).of_mem_arenaFrom he
  have hmem := hperm.subset (hcovers.point_mem hfirst hlast)
  rw [hball] at hradius ⊢
  exact Binary64.not_productBound_around_lt hdim (fun p hp => hpoints p (hsubset p hp)) hmem
    hlength hquery hradius

/-- **Nine points whose squares vanish**: three zeros, `2 ^ -538`, and five times
`2 ^ -539`. -/
def tinyBall : List (List Binary64) :=
  let tiny : Binary64 := ⟨0x1e40000000000000⟩
  [[0], [0], [0], [⟨0x1e50000000000000⟩], [tiny], [tiny], [tiny], [tiny], [tiny]]

/-- The radius of every ball over them is zero. A query of length `2 ^ 489` does not notice. -/
theorem tinyBall_not_productBound_lt :
    tinyBall ≠ [] ∧ ArePoints Binary64.IsFinite 1 tinyBall
      ∧ (norm [Binary64.lengthLimit]).IsMeasurable
      ∧ ∃ t, ConeTree.ofPoints tinyBall = .ok t ∧ t.nodeCount = 3
        ∧ ∀ e ∈ t.arena, e.node.ball.radius = 0 ∧ ∀ i, e.first ≤ i → i < e.last →
          ¬ e.node.ball.productBound [Binary64.lengthLimit] (norm [Binary64.lengthLimit])
              < dot [Binary64.lengthLimit] (t.point i) := by
  have hne : tinyBall ≠ [] := by decide
  have hpoints : ArePoints Binary64.IsFinite 1 tinyBall := by
    unfold ArePoints
    decide +kernel
  have hlength : (norm [Binary64.lengthLimit]).IsMeasurable := by decide +kernel
  obtain ⟨t, hbuilt, hbound⟩ :=
    not_productBound_lt_dot hne (by decide : 0 < 1) (by decide : 1 ≤ 2000) hpoints
  refine ⟨hne, hpoints, hlength, t, hbuilt, ?_⟩
  obtain rfl := root_of_ofPoints_eq_ok hbuilt
  have hradius : ∀ e ∈ ({ root := nodeOf tinyBall } : ConeTree Binary64).arena,
      e.node.ball.radius = 0 := by decide +kernel
  refine ⟨by decide +kernel, fun e he => ⟨hradius e he, fun i hfirst hlast => ?_⟩⟩
  have hzero : e.node.ball.radius.IsMeasurable := by
    rw [hradius e he]
    decide +kernel
  exact hbound [Binary64.lengthLimit] rfl hlength e he hzero i hfirst hlast

/-- **A query of length `2 ^ 511` does**: its product with the largest point is above the
bound of a leaf that has the point, and the search does not find it. -/
theorem tinyBall_find :
    ∃ t : ConeTree Binary64, ConeTree.ofPoints tinyBall = .ok t
      ∧ ArePoints Binary64.IsFinite 1 tinyBall
      ∧ (∃ e ∈ t.arena, ∃ i < e.last, e.first ≤ i
        ∧ e.node.ball.productBound [⟨0x5fe0000000000000⟩] (norm [⟨0x5fe0000000000000⟩])
          < dot [⟨0x5fe0000000000000⟩] (t.point i))
      ∧ t.findLinear [⟨0x5fe0000000000000⟩] = ⟨3, ⟨0x3e40000000000000⟩⟩
      ∧ t.find [⟨0x5fe0000000000000⟩] = ⟨4, ⟨0x3e30000000000000⟩⟩ := by
  refine ⟨{ root := nodeOf tinyBall }, ?_, ?_, ?_, ?_, ?_⟩
  · exact ofPoints_eq_ok (by decide) (by decide : 0 < 1) (by decide)
  · unfold ArePoints
    decide +kernel
  · decide +kernel
  · decide +kernel
  · decide +kernel

end ConeTree

end ParetoSelection
