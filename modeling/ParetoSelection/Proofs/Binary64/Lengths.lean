import ParetoSelection.Proofs.Binary64.Overflow
import ParetoSelection.Proofs.Binary64.Sums

/-!
# Lengths and distances

How long a vector is can be read off its computed length, up to `normRoundoff` of it and
`normUnderflow` (`norm_vec_le_norm`), and how far two points are apart off the computed
distance (`norm_sub_vec_le_sqrt`). The second error is not relative: the squares of small
coordinates vanish, so that a vector may have a length although the computed one is zero.
The root of what vanished is as small as `normUnderflow`, and not smaller.
-/

namespace ParetoSelection

namespace Binary64

variable {n : ℕ}

/-- The relative error of a length. -/
noncomputable def normRoundoff : ℝ := twoPow (-43) + twoPow (-44)

theorem normRoundoff_eq : normRoundoff = 3 * 2 ^ (-44 : ℤ) := by
  unfold normRoundoff twoPow
  norm_num

/-- The error of a length that is not relative to it. -/
noncomputable def normUnderflow : ℝ := twoPow (-531)

/-- A number, from what a rounding leaves of it. -/
theorem le_of_sub_unitRoundoff_mul_le {a b : ℝ} (ha : 0 ≤ a) (h : a - unitRoundoff * a ≤ b) :
    a ≤ (1 + 2 * unitRoundoff) * b := by
  have hone : 1 ≤ (1 + 2 * unitRoundoff) * (1 - unitRoundoff) := by
    unfold unitRoundoff twoPow
    norm_num
  have hu := unitRoundoff_pos
  calc a ≤ (1 + 2 * unitRoundoff) * (1 - unitRoundoff) * a := le_mul_of_one_le_left ha hone
    _ = (1 + 2 * unitRoundoff) * (a - unitRoundoff * a) := by ring
    _ ≤ (1 + 2 * unitRoundoff) * b := by gcongr

/-- A root, from its rounding. -/
theorem sqrt_le_of_abs_sub_le {y s : ℝ} (h : |s - √y| ≤ unitRoundoff * |√y| + underflow) :
    √y ≤ (1 + 2 * unitRoundoff) * (s + underflow) := by
  have hlow := (abs_le.1 h).1
  rw [abs_of_nonneg (Real.sqrt_nonneg y)] at hlow
  exact le_of_sub_unitRoundoff_mul_le (Real.sqrt_nonneg y) (by linarith)

/-- The error of a root of `dotUnderflow`, in units that a length is measured in. -/
theorem dotUnderflow_le : dotUnderflow ≤ (6 * 2 ^ (-534 : ℤ)) ^ 2 := by
  have hsq : (2 : ℝ) ^ (-534 : ℤ) * 2 ^ (-534 : ℤ) = 2 ^ (-1068 : ℤ) :=
    (zpow_add₀ two_ne_zero (-534) (-534)).symm
  have hshift : dotUnderflow = 2 ^ (5 : ℤ) * 2 ^ (-1068 : ℤ) :=
    zpow_add₀ two_ne_zero 5 (-1068)
  have hpos : (0 : ℝ) < 2 ^ (-1068 : ℤ) := by positivity
  rw [hshift, mul_pow, sq (2 ^ (-534 : ℤ) : ℝ), hsq]
  exact mul_le_mul_of_nonneg_right (by norm_num) hpos.le

/-- In these units a single underflow is nothing. -/
theorem underflow_le_unit : underflow ≤ 2 ^ (-100 : ℤ) * 2 ^ (-534 : ℤ) := by
  rw [← zpow_add₀ two_ne_zero]
  exact zpow_le_zpow_right₀ one_le_two (by norm_num)

/-- The error of a length, in these units. -/
theorem normUnderflow_eq : normUnderflow = 2 ^ (3 : ℤ) * 2 ^ (-534 : ℤ) :=
  zpow_add₀ two_ne_zero 3 (-534)

/-- A length, from what the sum of its squares has lost. -/
theorem le_of_sq_sub_le {l w : ℝ} (hw : 0 ≤ w)
    (h : l ^ 2 - (dotRoundoff * l ^ 2 + dotUnderflow) ≤ w ^ 2) :
    l ≤ (1 + 9 * 2 ^ (-46 : ℤ)) * (w + 6 * 2 ^ (-534 : ℤ)) := by
  have hε := dotUnderflow_le
  have hc : (0 : ℝ) ≤ 6 * 2 ^ (-534 : ℤ) := by positivity
  generalize (6 * 2 ^ (-534 : ℤ) : ℝ) = c at hε hc ⊢
  have hfactor : (1 : ℝ) ≤ (1 + 9 * 2 ^ (-46 : ℤ)) ^ 2 * (1 - dotRoundoff) := by
    unfold dotRoundoff twoPow
    norm_num
  have hsq : l ^ 2 - dotRoundoff * l ^ 2 ≤ (w + c) ^ 2 := by
    have hcross := mul_nonneg hw hc
    linarith [add_sq w c]
  refine le_of_abs_le (abs_le_of_sq_le_sq ?_ (by positivity))
  calc l ^ 2 ≤ (1 + 9 * 2 ^ (-46 : ℤ)) ^ 2 * (1 - dotRoundoff) * l ^ 2 :=
        le_mul_of_one_le_left (sq_nonneg l) hfactor
    _ = (1 + 9 * 2 ^ (-46 : ℤ)) ^ 2 * (l ^ 2 - dotRoundoff * l ^ 2) := by ring
    _ ≤ (1 + 9 * 2 ^ (-46 : ℤ)) ^ 2 * (w + c) ^ 2 := by gcongr
    _ = ((1 + 9 * 2 ^ (-46 : ℤ)) * (w + c)) ^ 2 := by ring

open scoped InnerProductSpace in
/-- **A vector is not longer than the root says** of any number that its inner product
with itself is not above. -/
theorem norm_vec_le_sqrt (hn : n ≤ 2000) {f : Fin n → Binary64} {y : Binary64}
    (hdot : (dot (List.ofFn f) (List.ofFn f)).IsFinite)
    (hle : (dot (List.ofFn f) (List.ofFn f)).value ≤ y.value)
    (hroot : (Scalar.sqrt y).IsFinite) :
    ‖vec f‖ ≤ (1 + 5 * 2 ^ (-45 : ℤ)) * (Scalar.sqrt y).value + 7 * 2 ^ (-534 : ℤ) := by
  obtain ⟨hy, hsign⟩ := isFinite_of_isFinite_sqrt hroot
  have hs := value_nonneg_of_isUnsigned (isUnsigned_sqrt y)
  have hw := sqrt_le_of_abs_sub_le ((isRounded_sqrt hy hsign).abs_sub_le hroot)
  obtain ⟨-, hloss⟩ := abs_value_dot_sub_le hn hdot
  have hlow := (abs_le.1 hloss).1
  rw [real_inner_self_eq_norm_sq, ← sq] at hlow
  have hw0 := (Real.sqrt_nonneg y.value).trans hw
  have hyw := (Real.sqrt_le_left hw0).1 hw
  have hlength := le_of_sq_sub_le (l := ‖vec f‖) hw0 (by linarith)
  have hηc := underflow_le_unit
  have hη := underflow_pos
  refine hlength.trans ?_
  generalize (2 ^ (-534 : ℤ) : ℝ) = c at hηc ⊢
  generalize (Scalar.sqrt y).value = s at hs ⊢
  generalize underflow = η at hηc hη ⊢
  unfold unitRoundoff twoPow
  norm_num at hηc ⊢
  linarith

/-! ## Distances -/

/-- A vector is as long as its coordinates allow. -/
theorem norm_le_of_abs_le (x y : EuclideanSpace ℝ (Fin n)) {a b : ℝ} (ha : 0 ≤ a) (hb : 0 ≤ b)
    (h : ∀ k, |x k| ≤ a * |y k| + b) : ‖x‖ ≤ a * ‖y‖ + √n * b := by
  obtain ⟨y', hy'⟩ : ∃ y' : EuclideanSpace ℝ (Fin n), ∀ k, y' k = |y k| :=
    ⟨WithLp.toLp 2 fun k => |y k|, fun _ => rfl⟩
  obtain ⟨one, hone⟩ : ∃ one : EuclideanSpace ℝ (Fin n), ∀ k, one k = 1 :=
    ⟨WithLp.toLp 2 fun _ => 1, fun _ => rfl⟩
  have hnorm : ‖y'‖ = ‖y‖ := by
    rw [EuclideanSpace.norm_eq, EuclideanSpace.norm_eq]
    simp [hy']
  have hnormone : ‖one‖ = √n := by
    rw [EuclideanSpace.norm_eq]
    simp [hone]
  calc ‖x‖ ≤ ‖a • y' + b • one‖ := by
        rw [EuclideanSpace.norm_eq, EuclideanSpace.norm_eq]
        refine Real.sqrt_le_sqrt (Finset.sum_le_sum fun k _ => ?_)
        rw [Real.norm_eq_abs, Real.norm_eq_abs]
        refine pow_le_pow_left₀ (abs_nonneg _) ((h k).trans ?_) 2
        have hk : (a • y' + b • one) k = a * |y k| + b := by
          simp [hy', hone]
        rw [hk]
        exact le_abs_self _
    _ ≤ ‖a • y'‖ + ‖b • one‖ := norm_add_le _ _
    _ = a * ‖y‖ + √n * b := by
        rw [norm_smul, norm_smul, Real.norm_of_nonneg ha, Real.norm_of_nonneg hb, hnorm, hnormone,
          mul_comm b]

/-- **A difference of vectors**, from the rounded differences of their coordinates. -/
theorem norm_sub_vec_le (hn : n ≤ 2000) {f g : Fin n → Binary64} (hf : ∀ k, (f k).IsFinite)
    (hg : ∀ k, (g k).IsFinite) (hfg : ∀ k, (f k - g k).IsFinite) :
    ‖vec f - vec g‖
      ≤ (1 + 2 * unitRoundoff) * (‖vec fun k => f k - g k‖ + 2 ^ (6 : ℤ) * underflow) := by
  have hu := unitRoundoff_pos
  have hη := underflow_pos
  have hcoords (k : Fin n) : |(vec f - vec g - vec fun k => f k - g k) k|
      ≤ unitRoundoff * |(vec f - vec g) k| + underflow := by
    have hround := (isRounded_sub (hf k) (hg k)).abs_sub_le (hfg k)
    rwa [abs_sub_comm] at hround
  have herror := norm_le_of_abs_le _ _ hu.le hη.le hcoords
  have htri := norm_le_insert' (vec f - vec g) (vec fun k => f k - g k)
  have hroot : √(n : ℝ) ≤ 2 ^ (6 : ℤ) := by
    rw [Real.sqrt_le_left (by positivity)]
    have hn' : (n : ℝ) ≤ 2000 := by exact_mod_cast hn
    norm_num
    linarith
  have hmul := mul_le_mul_of_nonneg_right hroot hη.le
  exact le_of_sub_unitRoundoff_mul_le (norm_nonneg _) (by linarith)

/-- A squared distance is the inner product of the rounded differences with themselves. -/
theorem distanceSq_ofFn (f g : Fin n → Binary64) :
    distanceSq (List.ofFn f) (List.ofFn g)
      = dot (List.ofFn fun k => f k - g k) (List.ofFn fun k => f k - g k) := by
  unfold distanceSq dot
  rw [zipWith_ofFn, zipWith_ofFn]

/-- **Two points are not further apart than the root says** of any number that their squared
distance is not above. -/
theorem norm_sub_vec_le_sqrt (hn : n ≤ 2000) {f g : Fin n → Binary64} {y : Binary64}
    (hf : ∀ k, (f k).IsFinite) (hg : ∀ k, (g k).IsFinite)
    (hdist : (distanceSq (List.ofFn f) (List.ofFn g)).IsFinite)
    (hle : (distanceSq (List.ofFn f) (List.ofFn g)).value ≤ y.value)
    (hroot : (Scalar.sqrt y).IsFinite) :
    ‖vec f - vec g‖ ≤ (1 + normRoundoff) * (Scalar.sqrt y).value + normUnderflow := by
  rw [distanceSq_ofFn] at hdist hle
  have hfg (k : Fin n) := ((abs_value_dot_sub_le hn hdist).1 k).1
  have hlength := norm_vec_le_sqrt hn hdist hle hroot
  have hs := value_nonneg_of_isUnsigned (isUnsigned_sqrt y)
  have hηc := underflow_le_unit
  have hη := underflow_pos
  refine (norm_sub_vec_le hn hf hg hfg).trans ?_
  rw [normUnderflow_eq]
  generalize (2 ^ (-534 : ℤ) : ℝ) = c at hηc hlength ⊢
  generalize (Scalar.sqrt y).value = s at hs hlength ⊢
  generalize underflow = η at hηc hη ⊢
  rw [normRoundoff_eq]
  unfold unitRoundoff twoPow
  norm_num at hηc hlength ⊢
  linarith

/-- **A vector is not longer than its computed length says.** -/
theorem norm_vec_le_norm (hn : n ≤ 2000) {f : Fin n → Binary64}
    (h : (norm (List.ofFn f)).IsFinite) :
    (∀ k, (f k).IsFinite)
      ∧ ‖vec f‖ ≤ (1 + normRoundoff) * (norm (List.ofFn f)).value + normUnderflow := by
  obtain ⟨hdot, -⟩ := isFinite_of_isFinite_sqrt h
  refine ⟨fun k => ((abs_value_dot_sub_le hn hdot).1 k).1, ?_⟩
  have hs := value_nonneg_of_isUnsigned (isUnsigned_sqrt (dot (List.ofFn f) (List.ofFn f)))
  refine (norm_vec_le_sqrt hn hdot (le_refl _) h).trans ?_
  rw [normUnderflow_eq]
  have hc : (0 : ℝ) < 2 ^ (-534 : ℤ) := by positivity
  generalize (2 ^ (-534 : ℤ) : ℝ) = c at hc ⊢
  show _ * (norm (List.ofFn f)).value + _ ≤ _
  have hs : 0 ≤ (norm (List.ofFn f)).value := hs
  generalize (norm (List.ofFn f)).value = s at hs ⊢
  rw [normRoundoff_eq]
  norm_num
  linarith

/-- No root is larger. -/
noncomputable def largestRoot : ℝ := twoPow 513

/-- **A finite root is not large.** -/
theorem value_sqrt_le {y : Binary64} (h : (Scalar.sqrt y).IsFinite) :
    (Scalar.sqrt y).value ≤ largestRoot := by
  obtain ⟨hy, hsign⟩ := isFinite_of_isFinite_sqrt h
  have hround := (abs_le.1 ((isRounded_sqrt hy hsign).abs_sub_le h)).2
  have hroot : √y.value ≤ 2 ^ (512 : ℤ) := by
    rw [Real.sqrt_le_left (by positivity), sq, ← zpow_add₀ two_ne_zero]
    exact (le_abs_self _).trans hy.abs_value_le
  have hη : underflow ≤ 2 ^ (-1 : ℤ) := zpow_le_zpow_right₀ one_le_two (by norm_num)
  have hone : (1 : ℝ) ≤ 2 ^ (512 : ℤ) := one_le_zpow₀ one_le_two (by norm_num)
  have htwo : largestRoot = 2 ^ (1 : ℤ) * 2 ^ (512 : ℤ) := zpow_add₀ two_ne_zero 1 512
  rw [abs_of_nonneg (Real.sqrt_nonneg _)] at hround
  rw [htwo]
  generalize (2 : ℝ) ^ (512 : ℤ) = b at hroot hone ⊢
  generalize √y.value = r at hround hroot
  generalize underflow = η at hround hη
  unfold unitRoundoff twoPow at hround
  norm_num at hround hη ⊢
  linarith

end Binary64

end ParetoSelection
