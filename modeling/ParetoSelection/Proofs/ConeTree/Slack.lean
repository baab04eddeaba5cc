import ParetoSelection.ConeTree.Basic
import ParetoSelection.Proofs.Binary64.Lengths

/-!
# What the slack of a bound covers

The bound of a ball is computed from an inner product, three lengths and a slack, and each
of them is rounded, as is the inner product that it has to bound. All of these errors are
small next to `1 + qn * (cn + r)`, where `qn`, `cn` and `r` are the computed lengths of the
query, of the center and of the radius, and so is the slack – which is larger than they are
together, as long as the computed lengths say how long the vectors are (`AreMeasured`).

They do not where squares have vanished. A length is then off by up to `normUnderflow`
whatever it is, and in the product with another length that counts as much as the other
length is. This is what `AreMeasured` excludes, for the query and the radius: no length
above `2 ^ 489`, so that the product stays below the slack of one part in `10 ^ 12`. The
center needs no limit of its own, for its length does not go into the bound except through
the slack.
-/

namespace ParetoSelection

namespace Binary64

open Float.Model (UnpackedFloat)

/-! ## Constants -/

/-- **The largest length with which vanished squares do not matter.** -/
noncomputable def safeLength : ℝ := twoPow 489

/-- Next to these constants a single underflow is nothing. -/
theorem underflow_le : underflow ≤ 2 ^ (-100 : ℤ) :=
  zpow_le_zpow_right₀ one_le_two (by norm_num)

theorem safeLength_pos : 0 < safeLength :=
  twoPow_pos _

theorem normUnderflow_pos : 0 < normUnderflow :=
  twoPow_pos _

theorem safeLength_le : safeLength ≤ largestRoot :=
  zpow_le_zpow_right₀ one_le_two (by norm_num)

/-- What vanishes, next to two safe lengths. -/
theorem normUnderflow_mul_safeLength : normUnderflow * (2 * safeLength) = 2 ^ (-41 : ℤ) := by
  have htwo : 2 * safeLength = 2 ^ (490 : ℤ) := (zpow_one_add₀ two_ne_zero 489).symm
  rw [htwo]
  exact (zpow_add₀ two_ne_zero (-531) 490).symm

/-- Any two lengths together. -/
theorem two_mul_largestRoot : 2 * largestRoot = 2 ^ (514 : ℤ) :=
  (zpow_one_add₀ two_ne_zero 513).symm

/-- What vanishes, next to any two lengths. -/
theorem normUnderflow_mul_largestRoot : normUnderflow * (2 * largestRoot) = 2 ^ (-17 : ℤ) := by
  rw [two_mul_largestRoot]
  exact (zpow_add₀ two_ne_zero (-531) 514).symm

/-- A safe length times any two lengths. -/
theorem safeLength_mul_largestRoot : safeLength * (2 * largestRoot) = 2 ^ (1003 : ℤ) := by
  rw [two_mul_largestRoot]
  exact (zpow_add₀ two_ne_zero 489 514).symm

/-- No such product overflows. -/
theorem safeLength_mul_largestRoot_le : 128 * (safeLength * (2 * largestRoot)) ≤ overflow := by
  have hpow : (128 : ℝ) = 2 ^ (7 : ℤ) := by norm_num
  rw [safeLength_mul_largestRoot, hpow, ← zpow_add₀ two_ne_zero]
  exact zpow_le_zpow_right₀ one_le_two (by norm_num)

/-- It is not below one, either. -/
theorem one_le_safeLength_mul : 1 ≤ safeLength * (2 * largestRoot) := by
  rw [safeLength_mul_largestRoot]
  exact one_le_zpow₀ one_le_two (by norm_num)

/-- The value of one. -/
theorem value_one : (1 : Binary64).value = 1 := by
  have hfin : (1 : Binary64).IsFinite := by decide
  have hsig : (1 : Binary64).significand = 2 ^ 52 := by decide
  have hexp : (1 : Binary64).exponent = -52 := by decide
  have hsign : (1 : Binary64).sign = .positive := rfl
  rw [hfin.value_eq, hsig, hexp, hsign]
  norm_num [UnpackedFloat.Sign.apply]

/-- **The slack is finite, and its value is between two powers of two.** -/
theorem value_slack :
    (Ball.slack : Binary64).IsFinite
      ∧ 2 ^ (-40 : ℤ) * (1 + 2 ^ (-10 : ℤ)) ≤ (Ball.slack : Binary64).value
      ∧ (Ball.slack : Binary64).value ≤ 2 ^ (-39 : ℤ) := by
  have hbits : (Ball.slack : Binary64) = ⟨0x3d719799812dea11⟩ := by decide +kernel
  have hfin : (⟨0x3d719799812dea11⟩ : Binary64).IsFinite := by decide
  have hsig : (⟨0x3d719799812dea11⟩ : Binary64).significand = 0x119799812dea11 := by decide
  have hexp : (⟨0x3d719799812dea11⟩ : Binary64).exponent = -92 := by decide
  have hsign : (⟨0x3d719799812dea11⟩ : Binary64).sign = .positive := rfl
  rw [hbits, hfin.value_eq, hsig, hexp, hsign]
  refine ⟨hfin, ?_, ?_⟩ <;> norm_num [UnpackedFloat.Sign.apply]

/-- Any length is far from overflowing. -/
theorem largestRoot_le_overflow : 8 * largestRoot ≤ overflow := by
  have hpow : (8 : ℝ) = 2 ^ (3 : ℤ) := by norm_num
  rw [hpow]
  unfold largestRoot twoPow
  rw [← zpow_add₀ two_ne_zero]
  exact zpow_le_zpow_right₀ one_le_two (by norm_num)

/-! ## Measured lengths -/

/-- **Computed lengths within limits, next to the true ones**: of a query, of a center,
and of the way from the center to a point. -/
structure AreMeasured (qn cn r : Binary64) (l m d : ℝ) : Prop where
  /-- The computed length of the query is finite. -/
  isFinite_query : qn.IsFinite
  /-- So is that of the center. -/
  isFinite_center : cn.IsFinite
  /-- So is the radius. -/
  isFinite_radius : r.IsFinite
  /-- The computed length of the query is not below zero. -/
  query_nonneg : 0 ≤ qn.value
  /-- Nor is that of the center. -/
  center_nonneg : 0 ≤ cn.value
  /-- Nor is the radius. -/
  radius_nonneg : 0 ≤ r.value
  /-- The query is not too long. -/
  query_le : qn.value ≤ safeLength
  /-- Nor is the center, which is a root. -/
  center_le : cn.value ≤ largestRoot
  /-- The radius is not too large. -/
  radius_le : r.value ≤ safeLength
  /-- The true length of the query. -/
  query_length_le : l ≤ (1 + normRoundoff) * qn.value + normUnderflow
  /-- The true length of the center. -/
  center_length_le : m ≤ (1 + normRoundoff) * cn.value + normUnderflow
  /-- The true way to the point. -/
  distance_le : d ≤ (1 + normRoundoff) * r.value + normUnderflow

/-- Two lengths multiplied, with their errors. -/
theorem mul_le_of_le {l m a b t : ℝ} (hm : 0 ≤ m) (ha : 0 ≤ a)
    (hl : l ≤ (1 + normRoundoff) * a + normUnderflow)
    (hm' : m ≤ (1 + normRoundoff) * b + normUnderflow) (ht : normUnderflow * (a + b) ≤ t) :
    l * m ≤ (1 + normRoundoff) ^ 2 * (a * b) + (1 + normRoundoff) * t + 2 ^ (-100 : ℤ) := by
  have hg : 0 < 1 + normRoundoff := by
    rw [normRoundoff_eq]
    positivity
  have hτ := normUnderflow_pos
  have hττ : normUnderflow * normUnderflow ≤ 2 ^ (-100 : ℤ) := by
    unfold normUnderflow twoPow
    rw [← zpow_add₀ two_ne_zero]
    exact zpow_le_zpow_right₀ one_le_two (by norm_num)
  calc l * m ≤ ((1 + normRoundoff) * a + normUnderflow)
        * ((1 + normRoundoff) * b + normUnderflow) := by gcongr
    _ = (1 + normRoundoff) ^ 2 * (a * b) + (1 + normRoundoff) * (normUnderflow * (a + b))
        + normUnderflow * normUnderflow := by ring
    _ ≤ _ := by gcongr

namespace AreMeasured

variable {qn cn r : Binary64} {l m d : ℝ}

/-- The query times the center, as computed lengths. -/
theorem query_mul_center_nonneg (h : AreMeasured qn cn r l m d) : 0 ≤ qn.value * cn.value :=
  mul_nonneg h.query_nonneg h.center_nonneg

/-- The query times the radius. -/
theorem query_mul_radius_nonneg (h : AreMeasured qn cn r l m d) : 0 ≤ qn.value * r.value :=
  mul_nonneg h.query_nonneg h.radius_nonneg

/-- No sum of lengths overflows. -/
theorem center_add_radius_le (h : AreMeasured qn cn r l m d) :
    cn.value + r.value ≤ 2 * largestRoot := by
  have hc := h.center_le
  have hr := h.radius_le
  have hlimit := safeLength_le
  linarith

/-- Nor does the product with the length of the query. -/
theorem query_mul_le_overflow (h : AreMeasured qn cn r l m d) :
    64 * (1 + (qn.value * cn.value + qn.value * r.value)) ≤ overflow := by
  have hcr := add_nonneg h.center_nonneg h.radius_nonneg
  have hproduct : qn.value * (cn.value + r.value) ≤ safeLength * (2 * largestRoot) :=
    mul_le_mul h.query_le h.center_add_radius_le hcr safeLength_pos.le
  have hone := one_le_safeLength_mul
  have hover := safeLength_mul_largestRoot_le
  rw [← mul_add]
  linarith

/-- What underflows, times the query. -/
theorem query_mul_underflow_le (h : AreMeasured qn cn r l m d) :
    qn.value * underflow ≤ 2 ^ (-100 : ℤ) :=
  calc qn.value * underflow ≤ safeLength * underflow :=
        mul_le_mul_of_nonneg_right h.query_le underflow_pos.le
    _ = 2 ^ (-586 : ℤ) := (zpow_add₀ two_ne_zero 489 (-1075)).symm
    _ ≤ 2 ^ (-100 : ℤ) := zpow_le_zpow_right₀ one_le_two (by norm_num)

/-- **The true length of the query times that of the center.** -/
theorem query_mul_center_le (hm : 0 ≤ m) (h : AreMeasured qn cn r l m d) :
    l * m ≤ (1 + normRoundoff) ^ 2 * (qn.value * cn.value) + 2 ^ (-16 : ℤ) := by
  have hlimit := safeLength_le
  have hq := h.query_le
  have hc := h.center_le
  have hτ : normUnderflow * (qn.value + cn.value) ≤ 2 ^ (-17 : ℤ) := by
    rw [← normUnderflow_mul_largestRoot]
    exact mul_le_mul_of_nonneg_left (by linarith) normUnderflow_pos.le
  have hle := mul_le_of_le hm h.query_nonneg h.query_length_le h.center_length_le hτ
  have hg : (1 + normRoundoff) * 2 ^ (-17 : ℤ) + 2 ^ (-100 : ℤ) ≤ 2 ^ (-16 : ℤ) := by
    rw [normRoundoff_eq]
    norm_num
  linarith

/-- **The true length of the query times the way to the point.** -/
theorem query_mul_distance_le (hd : 0 ≤ d) (h : AreMeasured qn cn r l m d) :
    l * d ≤ (1 + normRoundoff) ^ 2 * (qn.value * r.value)
      + (1 + normRoundoff) * 2 ^ (-41 : ℤ) + 2 ^ (-100 : ℤ) := by
  have hq := h.query_le
  have hr := h.radius_le
  have hτ : normUnderflow * (qn.value + r.value) ≤ 2 ^ (-41 : ℤ) := by
    rw [← normUnderflow_mul_safeLength]
    exact mul_le_mul_of_nonneg_left (by linarith) normUnderflow_pos.le
  exact mul_le_of_le hd h.query_nonneg h.query_length_le h.distance_le hτ

/-- Both together are not much longer than computed. -/
theorem query_mul_add_le (hm : 0 ≤ m) (hd : 0 ≤ d) (h : AreMeasured qn cn r l m d) :
    l * m + l * d ≤ 2 * (1 + (qn.value * cn.value + qn.value * r.value)) := by
  have hx := h.query_mul_radius_nonneg
  have hy := h.query_mul_center_nonneg
  have hlm := h.query_mul_center_le hm
  have hld := h.query_mul_distance_le hd
  rw [normRoundoff_eq] at hlm hld
  norm_num at hlm hld
  linarith

/-- They do not overflow either. -/
theorem query_mul_add_le_overflow (hm : 0 ≤ m) (hd : 0 ≤ d) (h : AreMeasured qn cn r l m d) :
    16 * (l * m + l * d) ≤ overflow := by
  have hx := h.query_mul_radius_nonneg
  have hy := h.query_mul_center_nonneg
  have hover := h.query_mul_le_overflow
  have hle := h.query_mul_add_le hm hd
  linarith

/-! ## Rounding -/

/-- **What all errors are measured by**, computed. -/
theorem isNear_measure (h : AreMeasured qn cn r l m d) :
    (1 + qn * (cn + r)).IsNear (1 + (qn.value * cn.value + qn.value * r.value))
      (5 * unitRoundoff * (1 + (qn.value * cn.value + qn.value * r.value))) := by
  have hu : unitRoundoff = 2 ^ (-53 : ℤ) := rfl
  have hη := underflow_le
  have hcr := add_nonneg h.center_nonneg h.radius_nonneg
  have hover := h.query_mul_le_overflow
  have hqη := h.query_mul_underflow_le
  have hsum := (isNear_value h.isFinite_center).add (isNear_value h.isFinite_radius) (by
    rw [abs_of_nonneg hcr]
    have hle := h.center_add_radius_le
    have hlarge := largestRoot_le_overflow
    linarith)
  have hmul := IsNear.const_mul h.isFinite_query hsum
  -- from here on the two products are one number
  rw [← mul_add] at hover ⊢
  have ha := mul_nonneg h.query_nonneg hcr
  rw [abs_of_nonneg hcr, add_zero, add_zero, add_zero, abs_of_nonneg ha,
    abs_of_nonneg h.query_nonneg] at hmul
  have herror : qn.value * (unitRoundoff * (cn.value + r.value) + underflow)
      ≤ unitRoundoff * (qn.value * (cn.value + r.value)) + 2 ^ (-100 : ℤ) := by linarith
  generalize qn.value * (cn.value + r.value) = a at hover ha hmul herror ⊢
  generalize qn.value * (unitRoundoff * (cn.value + r.value) + underflow) = b at hmul herror
  have hproduct : (qn * (cn + r)).IsNear a (3 * unitRoundoff * a + 2 ^ (-90 : ℤ)) := by
    refine (hmul ?_).mono ?_ <;> rw [hu] at * <;> norm_num at * <;> linarith
  have hone : (1 : Binary64).IsFinite := by decide
  have hadd := (isNear_value hone).add hproduct
  rw [value_one, abs_of_nonneg (by linarith : 0 ≤ 1 + a)] at hadd
  refine (hadd ?_).mono ?_ <;> rw [hu] at * <;> norm_num at * <;> linarith

/-- The slack of a number that is not below one. -/
theorem isNear_slack_mul {z : Binary64} {a : ℝ} (ha : 1 ≤ a) (hover : 64 * a ≤ overflow)
    (hz : z.IsNear a (5 * unitRoundoff * a)) :
    (Ball.slack * z).IsNear ((Ball.slack : Binary64).value * a)
      (7 * unitRoundoff * ((Ball.slack : Binary64).value * a)) := by
  obtain ⟨hσ, hlow, hhigh⟩ := value_slack
  have hu : unitRoundoff = 2 ^ (-53 : ℤ) := rfl
  have hη := underflow_le
  have hσ0 : 0 ≤ (Ball.slack : Binary64).value := le_trans (by positivity) hlow
  have hmul := IsNear.const_mul hσ hz
  have hle : (Ball.slack : Binary64).value * a ≤ a :=
    mul_le_of_le_one_left (by linarith) (hhigh.trans (by norm_num))
  have hge : 2 ^ (-40 : ℤ) ≤ (Ball.slack : Binary64).value * a := by
    refine le_trans ?_ (le_mul_of_one_le_right hσ0 ha)
    exact le_trans (by norm_num) hlow
  have hk : 0 ≤ (Ball.slack : Binary64).value * a := le_trans (by positivity) hge
  rw [abs_of_nonneg hk, abs_of_nonneg hσ0, mul_left_comm] at hmul
  -- the exact slack is not below `2 ^ -40`, so an underflow disappears in its roundoff
  generalize (Ball.slack : Binary64).value * a = k at hmul hle hge hk ⊢
  refine (hmul ?_).mono ?_ <;> rw [hu] at * <;> norm_num at * <;> linarith

/-- **The bound without the slack.** -/
theorem isNear_bound (h : AreMeasured qn cn r l m d) {dc : Binary64} {v k : ℝ} (hv : |v| ≤ k)
    (hk : k ≤ 2 * (1 + (qn.value * cn.value + qn.value * r.value)))
    (hdc : dc.IsNear v (dotRoundoff * k + dotUnderflow)) :
    (dc + qn * r).IsNear (v + qn.value * r.value)
      ((dotRoundoff + 2 * unitRoundoff) * k + 4 * unitRoundoff * (qn.value * r.value)
        + 2 ^ (-90 : ℤ)) := by
  have hu : unitRoundoff = 2 ^ (-53 : ℤ) := rfl
  have hγ : dotRoundoff = 2 ^ (-42 : ℤ) := rfl
  have hη := underflow_le
  have hε : dotUnderflow ≤ 2 ^ (-100 : ℤ) := zpow_le_zpow_right₀ one_le_two (by norm_num)
  have hx := h.query_mul_radius_nonneg
  have hy := h.query_mul_center_nonneg
  have hover := h.query_mul_le_overflow
  have hmul := IsNear.const_mul h.isFinite_query (isNear_value h.isFinite_radius)
  rw [abs_of_nonneg hx, mul_zero, add_zero, add_zero] at hmul
  have hproduct := hmul (by linarith)
  generalize qn.value * r.value = x at hk hproduct hx hover ⊢
  generalize qn.value * cn.value = y at hk hy hover
  have hk0 : 0 ≤ k := (abs_nonneg v).trans hv
  have habs : |v + x| ≤ k + x := (abs_add_le v x).trans (by rw [abs_of_nonneg hx]; gcongr)
  have hadd := hdc.add hproduct
  refine (hadd ?_).mono ?_ <;> rw [hu, hγ] at * <;> norm_num at * <;> linarith

/-- **The slack covers all errors.** -/
theorem value_lt_bound (h : AreMeasured qn cn r l m d) (hl : 0 ≤ l) (hm : 0 ≤ m) (hd : 0 ≤ d)
    {dc dp : Binary64} {v w : ℝ} (hv : |v| ≤ l * m) (hw : w ≤ v + l * d)
    (hdc : dc.IsNear v (dotRoundoff * (l * m) + dotUnderflow))
    (hdp : dp.value ≤ w + (dotRoundoff * (l * m + l * d) + dotUnderflow)) :
    (dc + qn * r + Ball.slack * (1 + qn * (cn + r))).IsFinite
      ∧ dp.value < (dc + qn * r + Ball.slack * (1 + qn * (cn + r))).value := by
  have hu : unitRoundoff = 2 ^ (-53 : ℤ) := rfl
  have hγ : dotRoundoff = 2 ^ (-42 : ℤ) := rfl
  have hg := normRoundoff_eq
  have hη := underflow_le
  have hε : dotUnderflow ≤ 2 ^ (-100 : ℤ) := zpow_le_zpow_right₀ one_le_two (by norm_num)
  have hx := h.query_mul_radius_nonneg
  have hy := h.query_mul_center_nonneg
  have hover := h.query_mul_le_overflow
  have hlm := h.query_mul_center_le hm
  have hld := h.query_mul_distance_le hd
  have hk := (le_add_of_nonneg_right (mul_nonneg hl hd)).trans (h.query_mul_add_le hm hd)
  have hbound := h.isNear_bound hv hk hdc
  have hslack := isNear_slack_mul (by linarith) hover h.isNear_measure
  obtain ⟨-, hlow, hhigh⟩ := value_slack
  have hlow' := mul_le_mul_of_nonneg_right hlow
    (by linarith : 0 ≤ 1 + (qn.value * cn.value + qn.value * r.value))
  have hhigh' := mul_le_mul_of_nonneg_right hhigh
    (by linarith : 0 ≤ 1 + (qn.value * cn.value + qn.value * r.value))
  have hadd := hbound.add hslack
  -- all that is left is linear in the products of two lengths and in the slack
  generalize l * m = lm at *
  generalize l * d = ld at *
  generalize qn.value * r.value = x at *
  generalize qn.value * cn.value = y at *
  generalize (Ball.slack : Binary64).value * (1 + (y + x)) = k at *
  have hk0 : 0 ≤ k := le_trans (by positivity) hlow'
  have habs : |v + x + k| ≤ lm + x + k := by
    refine (abs_add_three v x k).trans ?_
    rw [abs_of_nonneg hx, abs_of_nonneg hk0]
    gcongr
  have hlm0 : 0 ≤ lm := (abs_nonneg v).trans hv
  obtain ⟨hfin, herror⟩ := hadd (by
    rw [hu, hγ] at *
    norm_num at *
    linarith)
  refine ⟨hfin, ?_⟩
  have hlower := (abs_le.1 herror).1
  rw [hu, hγ, hg] at *
  norm_num at *
  linarith

end AreMeasured

end Binary64

end ParetoSelection
