import ParetoSelection.Geometry
import ParetoSelection.Proofs.Binary64.Operations

/-!
# Sums and inner products

A sum of many terms is added up from left to right, and every addition rounds. What has
been lost before is carried along and grows by `1 + unitRoundoff` with every term, so after
`n` terms the loss is at most `growth n - 1` of the sum of the magnitudes
(`abs_value_sum_sub_le`). For up to 2000 coordinates that makes `dotRoundoff` of the
product of the lengths for an inner product (`abs_value_dot_sub_le`).

Results are not assumed to be in range. Where a sum is finite, so is everything that went
into it; and a sum of magnitudes that are not too large is finite (`isFinite_sum`,
`isFinite_dot`).
-/

namespace ParetoSelection

namespace Binary64

variable {n : ℕ}

/-! ## How errors grow -/

/-- **The factor by which `n` roundings enlarge an error.** -/
noncomputable def growth (n : ℕ) : ℝ :=
  (1 + unitRoundoff) ^ n

theorem one_le_growth (n : ℕ) : 1 ≤ growth n :=
  one_le_pow₀ (le_add_of_nonneg_right unitRoundoff_pos.le)

theorem growth_succ (n : ℕ) : growth (n + 1) = growth n * (1 + unitRoundoff) :=
  pow_succ _ n

/-- The relative error of an inner product. -/
noncomputable def dotRoundoff : ℝ := twoPow (-42)

/-- The error of an inner product that is not relative to it. -/
noncomputable def dotUnderflow : ℝ := twoPow (-1063)

theorem dotRoundoff_pos : 0 < dotRoundoff :=
  twoPow_pos _

/-- Errors that are smaller than the roundoff of `n` operations together do not add up
to more: Bernoulli's inequality, upside down. -/
theorem growth_mul_le_one (n : ℕ) : growth n * (1 - n * unitRoundoff) ≤ 1 := by
  have hu := unitRoundoff_pos
  have hu' : unitRoundoff ≤ 1 := by
    unfold unitRoundoff twoPow
    norm_num
  have hbernoulli : 1 - n * unitRoundoff ≤ (1 - unitRoundoff) ^ n := by
    have hpow := one_add_mul_le_pow (a := -unitRoundoff) (by linarith) n
    rwa [mul_neg, ← sub_eq_add_neg, ← sub_eq_add_neg] at hpow
  calc growth n * (1 - n * unitRoundoff)
      ≤ growth n * (1 - unitRoundoff) ^ n :=
        mul_le_mul_of_nonneg_left hbernoulli (zero_le_one.trans (one_le_growth n))
    _ = (1 - unitRoundoff ^ 2) ^ n := by
        rw [growth, ← mul_pow]
        ring
    _ ≤ 1 := pow_le_one₀ (by nlinarith) (by nlinarith)

/-- **The growth over an inner product** of up to 2000 coordinates. -/
theorem growth_le (h : n ≤ 2001) : growth n ≤ 1 + dotRoundoff := by
  have hu := unitRoundoff_pos
  have hn : (n : ℝ) * unitRoundoff ≤ 2001 * unitRoundoff :=
    mul_le_mul_of_nonneg_right (by exact_mod_cast h) hu.le
  have hone : (1 : ℝ) ≤ (1 + dotRoundoff) * (1 - 2001 * unitRoundoff) := by
    unfold dotRoundoff unitRoundoff twoPow
    norm_num
  have hpos : (0 : ℝ) < 1 - 2001 * unitRoundoff := by
    unfold unitRoundoff twoPow
    norm_num
  refine le_of_mul_le_mul_right (le_trans ?_ hone) hpos
  refine le_trans ?_ (growth_mul_le_one n)
  exact mul_le_mul_of_nonneg_left (by linarith) (zero_le_one.trans (one_le_growth n))

/-- What underflows over one. -/
theorem mul_growth_mul_underflow_le (hn : n ≤ 2000) :
    2 * (n * growth n * underflow) ≤ dotUnderflow := by
  have hn' : (n : ℝ) ≤ 2000 := by exact_mod_cast hn
  have hg := growth_le (n := n) (by omega)
  have hη := underflow_pos
  have hg' := one_le_growth n
  have hfactor : 2 * (2000 * (1 + dotRoundoff)) ≤ 2 ^ (12 : ℤ) := by
    unfold dotRoundoff twoPow
    norm_num
  calc 2 * (n * growth n * underflow) ≤ 2 * (2000 * (1 + dotRoundoff) * underflow) := by gcongr
    _ = 2 * (2000 * (1 + dotRoundoff)) * underflow := by ring
    _ ≤ 2 ^ (12 : ℤ) * underflow := by gcongr
    _ = dotUnderflow := (zpow_add₀ two_ne_zero 12 (-1075)).symm

/-- That is next to nothing. -/
theorem dotUnderflow_le_one : 16 * dotUnderflow ≤ 1 := by
  have hpow : dotUnderflow ≤ 2 ^ (-4 : ℤ) := zpow_le_zpow_right₀ one_le_two (by norm_num)
  norm_num at hpow
  linarith

/-! ## Sums -/

/-- The last term is added last. -/
theorem sum_ofFn_succ (f : Fin (n + 1) → Binary64) :
    Scalar.sum (List.ofFn f)
      = Scalar.sum (List.ofFn fun k => f (Fin.castSucc k)) + f (Fin.last n) := by
  rw [List.ofFn_succ', List.concat_eq_append, Scalar.sum_concat]

/-- **One more term.** The error `w - (v + t)` of a sum, from the error `s - v` of the
sum before and the rounding of the addition. -/
theorem abs_sub_add_le {g a s v t w : ℝ} (hg : 1 ≤ g) (hv : |v| ≤ a)
    (hs : |s - v| ≤ (g - 1) * a + n * g * underflow)
    (hw : |w - (s + t)| ≤ unitRoundoff * |s + t| + underflow) :
    |w - (v + t)| ≤ (g * (1 + unitRoundoff) - 1) * (a + |t|)
      + (n + 1 : ℕ) * (g * (1 + unitRoundoff)) * underflow := by
  have hu := unitRoundoff_pos
  have hη := underflow_pos
  have hst : |s + t| ≤ a + |t| + |s - v| :=
    calc |s + t| = |v + t + (s - v)| := by ring_nf
      _ ≤ |v| + |t| + |s - v| := abs_add_three v t (s - v)
      _ ≤ a + |t| + |s - v| := by gcongr
  have hgrow : unitRoundoff * |t| ≤ (g * (1 + unitRoundoff) - 1) * |t| :=
    mul_le_mul_of_nonneg_right (by nlinarith) (abs_nonneg t)
  have hη' : underflow ≤ g * (1 + unitRoundoff) * underflow :=
    le_mul_of_one_le_left hη.le (by nlinarith)
  calc |w - (v + t)| = |w - (s + t) + (s - v)| := by ring_nf
    _ ≤ |w - (s + t)| + |s - v| := abs_add_le _ _
    _ ≤ unitRoundoff * (a + |t| + |s - v|) + underflow + |s - v| := by
        gcongr
        exact hw.trans (by gcongr)
    _ = unitRoundoff * (a + |t|) + underflow + (1 + unitRoundoff) * |s - v| := by ring
    _ ≤ unitRoundoff * (a + |t|) + underflow
          + (1 + unitRoundoff) * ((g - 1) * a + n * g * underflow) := by gcongr
    _ = (g * (1 + unitRoundoff) - 1) * a + unitRoundoff * |t|
          + (n * (g * (1 + unitRoundoff)) * underflow + underflow) := by ring
    _ ≤ (g * (1 + unitRoundoff) - 1) * a + (g * (1 + unitRoundoff) - 1) * |t|
          + (n * (g * (1 + unitRoundoff)) * underflow
            + g * (1 + unitRoundoff) * underflow) := by gcongr
    _ = _ := by
        push_cast
        ring

/-- **What a finite sum loses**, and that its terms are finite. -/
theorem abs_value_sum_sub_le (f : Fin n → Binary64) (h : (Scalar.sum (List.ofFn f)).IsFinite) :
    (∀ k, (f k).IsFinite)
      ∧ |(Scalar.sum (List.ofFn f)).value - ∑ k, (f k).value|
        ≤ (growth n - 1) * ∑ k, |(f k).value| + n * growth n * underflow := by
  induction n with
  | zero =>
    have hzero : (Scalar.sum [] : Binary64).value = 0 := value_eq_zero rfl
    refine ⟨fun k => k.elim0, ?_⟩
    rw [List.ofFn_zero, hzero]
    simp [growth]
  | succ n ih =>
    rw [sum_ofFn_succ] at h ⊢
    obtain ⟨hinit, hlast⟩ := isFinite_of_isFinite_add h
    obtain ⟨hfin, herror⟩ := ih (fun k => f (Fin.castSucc k)) hinit
    refine ⟨fun k => Fin.lastCases hlast hfin k, ?_⟩
    rw [Fin.sum_univ_castSucc, Fin.sum_univ_castSucc, growth_succ]
    exact abs_sub_add_le (one_le_growth n) (Finset.abs_sum_le_sum_abs _ _) herror
      ((isRounded_add hinit hlast).abs_sub_le h)

/-- A loss is at most as large as what it is lost from, up to one. -/
theorem loss_le (hn : n ≤ 2000) {a : ℝ} (ha : 0 ≤ a) :
    (growth n - 1) * a + n * growth n * underflow ≤ a + 1 := by
  have hg := growth_le (n := n) (by omega)
  have hη := mul_growth_mul_underflow_le hn
  have hε := dotUnderflow_le_one
  have hγ : dotRoundoff ≤ 1 := by
    unfold dotRoundoff twoPow
    norm_num
  have hrel : (growth n - 1) * a ≤ 1 * a := mul_le_mul_of_nonneg_right (by linarith) ha
  linarith

/-- **A sum is finite** unless its terms are large. -/
theorem isFinite_sum (hn : n ≤ 2000) (f : Fin n → Binary64) (hf : ∀ k, (f k).IsFinite)
    (hle : 4 * ∑ k, |(f k).value| ≤ overflow) : (Scalar.sum (List.ofFn f)).IsFinite := by
  induction n with
  | zero =>
    rw [List.ofFn_zero]
    decide
  | succ n ih =>
    rw [sum_ofFn_succ]
    rw [Fin.sum_univ_castSucc] at hle
    have hinit := ih (by omega) (fun k => f (Fin.castSucc k)) (fun k => hf _)
      (by linarith [abs_nonneg (f (Fin.last n)).value])
    obtain ⟨-, herror⟩ := abs_value_sum_sub_le _ hinit
    have habs := Finset.abs_sum_le_sum_abs (fun k => (f (Fin.castSucc k)).value) Finset.univ
    refine (isRounded_add hinit (hf _)).isFinite ?_
    generalize (Scalar.sum (List.ofFn fun k => f (Fin.castSucc k))).value = s at herror ⊢
    generalize ∑ k : Fin n, (f (Fin.castSucc k)).value = v at herror habs
    generalize ∑ k : Fin n, |(f (Fin.castSucc k)).value| = a at herror habs hle
    generalize (f (Fin.last n)).value = t at hle ⊢
    have ha : 0 ≤ a := (abs_nonneg v).trans habs
    have hgrowth := loss_le (n := n) (by omega) ha
    have hone : 4 ≤ overflow := by
      have hpow : (2 : ℝ) ^ (2 : ℤ) ≤ overflow := zpow_le_zpow_right₀ one_le_two (by norm_num)
      norm_num at hpow
      exact hpow
    calc |s + t| = |v + t + (s - v)| := by ring_nf
      _ ≤ |v| + |t| + |s - v| := abs_add_three v t (s - v)
      _ ≤ a + |t| + (a + 1) := by gcongr; exact herror.trans hgrowth
      _ ≤ overflow := by linarith [abs_nonneg t]

/-! ## Inner products -/

/-- **The vector of the values of some coordinates.** -/
noncomputable def vec (f : Fin n → Binary64) : EuclideanSpace ℝ (Fin n) :=
  WithLp.toLp _ fun k => (f k).value

/-- Cauchy and Schwarz, term by term. -/
theorem sum_abs_mul_le (f g : Fin n → Binary64) :
    ∑ k, |(f k).value * (g k).value| ≤ ‖vec f‖ * ‖vec g‖ := by
  have hle := Real.sum_mul_le_sqrt_mul_sqrt Finset.univ (fun k => |(f k).value|)
    (fun k => |(g k).value|)
  rw [EuclideanSpace.norm_eq, EuclideanSpace.norm_eq]
  simp only [abs_mul]
  exact hle

open scoped InnerProductSpace in
/-- The inner product of two vectors, coordinate by coordinate. -/
theorem inner_vec (f g : Fin n → Binary64) :
    ⟪vec f, vec g⟫_ℝ = ∑ k, (f k).value * (g k).value := by
  rw [PiLp.inner_apply]
  exact Finset.sum_congr rfl fun k _ => mul_comm _ _

/-- The products of finite coordinates, rounded one by one. -/
theorem sum_abs_value_mul_sub_le {f g : Fin n → Binary64} (hf : ∀ k, (f k).IsFinite)
    (hg : ∀ k, (g k).IsFinite) (hfg : ∀ k, (f k * g k).IsFinite) :
    ∑ k, |(f k * g k).value - (f k).value * (g k).value|
      ≤ unitRoundoff * ∑ k, |(f k).value * (g k).value| + n * underflow := by
  have hterm (k : Fin n) := (isRounded_mul (hf k) (hg k)).abs_sub_le (hfg k)
  refine (Finset.sum_le_sum fun k _ => hterm k).trans_eq ?_
  rw [Finset.sum_add_distrib, ← Finset.mul_sum, Finset.sum_const, Finset.card_univ,
    Fintype.card_fin, nsmul_eq_mul]

/-- So their magnitudes do not add up to much more. -/
theorem sum_abs_value_mul_le {f g : Fin n → Binary64} (hf : ∀ k, (f k).IsFinite)
    (hg : ∀ k, (g k).IsFinite) (hfg : ∀ k, (f k * g k).IsFinite) :
    ∑ k, |(f k * g k).value|
      ≤ (1 + unitRoundoff) * ∑ k, |(f k).value * (g k).value| + n * underflow := by
  have hterm (k : Fin n) : |(f k * g k).value|
      ≤ |(f k).value * (g k).value| + |(f k * g k).value - (f k).value * (g k).value| :=
    sub_le_iff_le_add'.1 (abs_sub_abs_le_abs_sub _ _)
  have hsum := sum_abs_value_mul_sub_le hf hg hfg
  calc ∑ k, |(f k * g k).value|
      ≤ ∑ k, |(f k).value * (g k).value|
          + ∑ k, |(f k * g k).value - (f k).value * (g k).value| := by
        rw [← Finset.sum_add_distrib]
        exact Finset.sum_le_sum fun k _ => hterm k
    _ ≤ _ := by linarith

open scoped InnerProductSpace in
/-- **What a finite inner product loses**, and that its coordinates are finite. -/
theorem abs_value_dot_sub_le (hn : n ≤ 2000) {f g : Fin n → Binary64}
    (h : (dot (List.ofFn f) (List.ofFn g)).IsFinite) :
    (∀ k, (f k).IsFinite ∧ (g k).IsFinite)
      ∧ |(dot (List.ofFn f) (List.ofFn g)).value - ⟪vec f, vec g⟫_ℝ|
        ≤ dotRoundoff * (‖vec f‖ * ‖vec g‖) + dotUnderflow := by
  unfold dot at h ⊢
  rw [zipWith_ofFn] at h ⊢
  obtain ⟨hfg, hsum⟩ := abs_value_sum_sub_le _ h
  have hf (k : Fin n) := (isFinite_of_isFinite_mul (hfg k)).1
  have hg (k : Fin n) := (isFinite_of_isFinite_mul (hfg k)).2
  refine ⟨fun k => ⟨hf k, hg k⟩, ?_⟩
  have hterms := (Finset.abs_sum_le_sum_abs _ _).trans (sum_abs_value_mul_sub_le hf hg hfg)
  have hmagnitudes := sum_abs_value_mul_le hf hg hfg
  have hcauchy := sum_abs_mul_le f g
  have ha : 0 ≤ ∑ k, |(f k).value * (g k).value| :=
    Finset.sum_nonneg fun k _ => abs_nonneg _
  rw [Finset.sum_sub_distrib] at hterms
  rw [inner_vec]
  generalize ∑ k, |(f k).value * (g k).value| = a at hterms hmagnitudes hcauchy ha
  generalize ∑ k, (f k).value * (g k).value = v at hterms ⊢
  generalize ∑ k, (f k * g k).value = t at hterms hsum
  generalize ∑ k, |(f k * g k).value| = b at hsum hmagnitudes
  generalize (Scalar.sum (List.ofFn fun k => f k * g k)).value = s at hsum ⊢
  have hgrow := one_le_growth n
  have hle := growth_le (n := n + 1) (by omega)
  rw [growth_succ] at hle
  have hu := unitRoundoff_pos
  have hη := underflow_pos
  have hloss := mul_growth_mul_underflow_le hn
  calc |s - v| = |s - t + (t - v)| := by ring_nf
    _ ≤ |s - t| + |t - v| := abs_add_le _ _
    _ ≤ (growth n - 1) * ((1 + unitRoundoff) * a + n * underflow) + n * growth n * underflow
          + (unitRoundoff * a + n * underflow) := by
        refine add_le_add (hsum.trans ?_) hterms
        have := mul_le_mul_of_nonneg_left hmagnitudes (sub_nonneg.2 hgrow)
        linarith
    _ = (growth n * (1 + unitRoundoff) - 1) * a + 2 * (n * growth n * underflow) := by ring
    _ ≤ dotRoundoff * a + dotUnderflow :=
        add_le_add (mul_le_mul_of_nonneg_right (by linarith) ha) hloss
    _ ≤ dotRoundoff * (‖vec f‖ * ‖vec g‖) + dotUnderflow := by
        have hγ := dotRoundoff_pos
        gcongr

/-- **An inner product is finite** unless the vectors are long. -/
theorem isFinite_dot (hn : n ≤ 2000) {f g : Fin n → Binary64} (hf : ∀ k, (f k).IsFinite)
    (hg : ∀ k, (g k).IsFinite) (hle : 16 * (‖vec f‖ * ‖vec g‖) ≤ overflow) :
    (dot (List.ofFn f) (List.ofFn g)).IsFinite := by
  have hcauchy := sum_abs_mul_le f g
  have hone := one_le_overflow
  have hterm (k : Fin n) : |(f k).value * (g k).value| ≤ overflow :=
    calc |(f k).value * (g k).value| ≤ ∑ k, |(f k).value * (g k).value| :=
          Finset.single_le_sum (f := fun k => |(f k).value * (g k).value|)
            (fun k _ => abs_nonneg _) (Finset.mem_univ k)
      _ ≤ overflow := by linarith
  have hfg (k : Fin n) := (isRounded_mul (hf k) (hg k)).isFinite (hterm k)
  have hmagnitudes := sum_abs_value_mul_le hf hg hfg
  have hη : n * underflow ≤ n * growth n * underflow :=
    mul_le_mul_of_nonneg_right (le_mul_of_one_le_right (Nat.cast_nonneg n) (one_le_growth n))
      underflow_pos.le
  have hloss := mul_growth_mul_underflow_le hn
  have hε := dotUnderflow_le_one
  have hu : unitRoundoff ≤ 1 := by
    unfold unitRoundoff twoPow
    norm_num
  have ha : 0 ≤ ∑ k, |(f k).value * (g k).value| :=
    Finset.sum_nonneg fun k _ => abs_nonneg _
  unfold dot
  rw [zipWith_ofFn]
  refine isFinite_sum hn _ hfg ?_
  generalize ∑ k, |(f k).value * (g k).value| = a at hcauchy hmagnitudes ha
  have hgrow : (1 + unitRoundoff) * a ≤ 2 * a := mul_le_mul_of_nonneg_right (by linarith) ha
  linarith

end Binary64

end ParetoSelection
