import ParetoSelection.Proofs.Binary64.Rounding

/-!
# Every operation rounds once

The sum, the difference, the product and the root of finite patterns are the sum, the
difference, the product and the root of their values, rounded (`isRounded_add`,
`isRounded_sub`, `isRounded_mul`, `isRounded_sqrt`). A difference is a sum with the sign
of one side turned.

Nothing finite is computed from what is not: if a result is finite, so were the operands
(`isFinite_of_isFinite_add` and those after it). For a sum of many terms this says that
no term and no sum on the way has overflowed.
-/

namespace ParetoSelection

namespace Binary64

open Float.Model
open UnpackedFloat (Sign Accuracy)

/-! ## Sums and differences -/

section Parts

variable {s₁ s₂ : Sign} {m₁ m₂ : ℕ} {e₁ e₂ : ℤ}

/-- Parts of a finite pattern are rounded already. -/
theorem isRounded_packed_ofParts (s : Sign) (h : IsCanonical m₁ e₁) (he : e₁ ≤ 971) :
    (packed (ofParts s m₁ e₁)).IsRounded ((s.apply m₁ : ℤ) * 2 ^ e₁) := by
  have hreading := reading_packed_ofParts s h
  rw [if_pos he] at hreading
  have hfin : (packed (ofParts s m₁ e₁)).IsFinite := by
    rw [isFinite_iff_reading, hreading]
    exact isFinite_ofParts s m₁ e₁
  have hround := isRounded_value hfin
  rwa [value, hreading, realOf_ofParts] at hround

/-- A significand on a smaller exponent, with its sign. -/
theorem cast_apply_shiftLeft_mul (s : Sign) (m : ℕ) {e e' : ℤ} (h : e' ≤ e) :
    ((s.apply (m <<< (e - e').toNat : ℕ) : ℤ) : ℝ) * 2 ^ e' = (s.apply m : ℤ) * 2 ^ e := by
  obtain ⟨k, rfl⟩ : ∃ k : ℕ, e = e' + k := ⟨(e - e').toNat, by omega⟩
  have hk : (e' + k - e').toNat = k := by omega
  have hshift := shiftLeft_mul_zpow m (e' + k) k
  rw [add_sub_cancel_right] at hshift
  rw [hk, cast_apply, cast_apply s m, Int.cast_natCast, Int.cast_natCast, mul_assoc, hshift,
    mul_assoc]

/-- The sum of two readings, rounded. -/
theorem isRounded_packed_add (h₁ : IsCanonical m₁ e₁) (he₁ : e₁ ≤ 971)
    (h₂ : IsCanonical m₂ e₂) (he₂ : e₂ ≤ 971) :
    (packed (UnpackedFloat.add Format.binary64 (ofParts s₁ m₁ e₁) (ofParts s₂ m₂ e₂))).IsRounded
      ((s₁.apply m₁ : ℤ) * 2 ^ e₁ + (s₂.apply m₂ : ℤ) * 2 ^ e₂) := by
  have happly (s : Sign) : s.apply 0 = 0 := by cases s <;> rfl
  have hzero (s : Sign) (e : ℤ) : ofParts s 0 e = .zero s := dif_pos rfl
  obtain rfl | hm₁ := Nat.eq_zero_or_pos m₁
  · obtain rfl | hm₂ := Nat.eq_zero_or_pos m₂
    · rw [hzero, hzero, Int.natCast_zero, happly, happly, Int.cast_zero, zero_mul, zero_mul,
        add_zero]
      cases s₁ <;> cases s₂ <;> exact isRounded_zero _
    · have hround := isRounded_packed_ofParts s₂ h₂ he₂
      rw [hzero, Int.natCast_zero, happly, Int.cast_zero, zero_mul, zero_add]
      rw [ofParts_of_pos hm₂] at hround ⊢
      exact hround
  · obtain rfl | hm₂ := Nat.eq_zero_or_pos m₂
    · have hround := isRounded_packed_ofParts s₁ h₁ he₁
      rw [hzero, Int.natCast_zero, happly, Int.cast_zero, zero_mul, add_zero]
      rw [ofParts_of_pos hm₁] at hround ⊢
      exact hround
    · rw [ofParts_of_pos hm₁, ofParts_of_pos hm₂,
        ← cast_apply_shiftLeft_mul s₁ m₁ (min_le_left e₁ e₂),
        ← cast_apply_shiftLeft_mul s₂ m₂ (min_le_right e₁ e₂), ← add_mul, ← Int.cast_add]
      exact isRounded_normalize _ _ _

end Parts

/-- A sum is the sum of the readings, put together. -/
theorem add_eq_packed (x y : Binary64) :
    x + y = packed (UnpackedFloat.add Format.binary64 x.reading y.reading) := by
  rw [← unpack_toModel, ← unpack_toModel]
  rfl

/-- **A sum is rounded.** -/
theorem isRounded_add {x y : Binary64} (hx : x.IsFinite) (hy : y.IsFinite) :
    (x + y).IsRounded (x.value + y.value) := by
  rw [add_eq_packed, hx.reading_eq_ofParts, hy.reading_eq_ofParts, hx.value_eq, hy.value_eq]
  exact isRounded_packed_add x.isCanonical_parts hx.exponent_le y.isCanonical_parts
    hy.exponent_le

/-- Subtracting is adding with the sign turned. -/
theorem sub_ofParts (format : Format) (u : UnpackedFloat) (s : Sign) (m : ℕ) (e : ℤ) :
    UnpackedFloat.sub format u (ofParts s m e)
      = UnpackedFloat.add format u (ofParts (-s) m e) := by
  obtain rfl | hm := Nat.eq_zero_or_pos m
  · cases u <;> rfl
  · rw [ofParts_of_pos hm, ofParts_of_pos hm]
    cases u with
    | finite t n f hn =>
      show UnpackedFloat.normalize format (_ - _) _ _ = UnpackedFloat.normalize format (_ + _) _ _
      rw [neg_apply, Int.sub_eq_add_neg]
    | _ => rfl

/-- **A difference is rounded.** -/
theorem isRounded_sub {x y : Binary64} (hx : x.IsFinite) (hy : y.IsFinite) :
    (x - y).IsRounded (x.value - y.value) := by
  rw [sub_eq_packed, hx.reading_eq_ofParts, hy.reading_eq_ofParts, hx.value_eq, hy.value_eq,
    sub_ofParts, sub_eq_add_neg, ← neg_mul, ← Int.cast_neg, ← neg_apply]
  exact isRounded_packed_add x.isCanonical_parts hx.exponent_le y.isCanonical_parts
    hy.exponent_le

/-! ## Products -/

/-- The sign of a product. -/
theorem cast_apply_mul (s t : Sign) :
    (((s * t).apply 1 : ℤ) : ℝ) = (s.apply 1 : ℤ) * (t.apply 1 : ℤ) := by
  have happly : (s * t).apply 1 = s.apply 1 * t.apply 1 := by cases s <;> cases t <;> rfl
  rw [happly, Int.cast_mul]

/-- The product of two significands has enough bits to be rounded. -/
theorem add_le_exponentFor_mul {m₁ m₂ : ℕ} {e₁ e₂ : ℤ} (h₁ : IsCanonical m₁ e₁)
    (h₂ : IsCanonical m₂ e₂) (hm₁ : 0 < m₁) (hm₂ : 0 < m₂) :
    e₁ + e₂ ≤ exponentFor (m₁ * m₂) (e₁ + e₂) := by
  have hlog (h : 2 ^ 52 ≤ m₁ ∨ 2 ^ 52 ≤ m₂) : 52 ≤ (m₁ * m₂).log2 := by
    rw [Nat.le_log2 (Nat.ne_of_gt (Nat.mul_pos hm₁ hm₂))]
    obtain h | h := h
    · exact le_trans h (Nat.le_mul_of_pos_right m₁ hm₂)
    · exact le_trans h (Nat.le_mul_of_pos_left m₂ hm₁)
  have hnormal₁ := h₁.normal
  have hnormal₂ := h₂.normal
  unfold exponentFor
  omega

/-- **A product is rounded.** -/
theorem isRounded_mul {x y : Binary64} (hx : x.IsFinite) (hy : y.IsFinite) :
    (x * y).IsRounded (x.value * y.value) := by
  rw [mul_eq_packed]
  obtain ⟨-, hrx⟩ | ⟨-, hpx, hrx⟩ := hx.reading_cases
  · rw [value_of_zero hrx, zero_mul, hrx]
    obtain ⟨-, hry⟩ | ⟨-, hpy, hry⟩ := hy.reading_cases
    · rw [hry]
      exact isRounded_zero _
    · rw [hry]
      exact isRounded_zero _
  · obtain ⟨-, hry⟩ | ⟨-, hpy, hry⟩ := hy.reading_cases
    · rw [value_of_zero hry, mul_zero, hrx, hry]
      exact isRounded_zero _
    · have hvalue : x.value * y.value = (((x.sign * y.sign).apply 1 : ℤ) : ℝ)
          * (((x.significand * y.significand : ℕ) : ℝ) * 2 ^ (x.exponent + y.exponent)) := by
        rw [value_of_finite hrx, value_of_finite hry, cast_apply, cast_apply y.sign,
          cast_apply_mul, zpow_add₀ two_ne_zero]
        push_cast
        ring
      rw [hvalue, hrx, hry]
      exact isRounded_roundWithAccuracy _ (Nat.mul_pos hpx hpy) (locates_exact _)
        (add_le_exponentFor_mul x.isCanonical_parts y.isCanonical_parts hpx hpy)

/-! ## Roots -/

/-- **The integer root locates the root.** -/
theorem locates_sqrt (n : ℕ) :
    Locates
      (if n - n.sqrt * n.sqrt = 0 then .exact
        else .inexact (if n - n.sqrt * n.sqrt ≤ n.sqrt then .lt else .gt))
      n.sqrt (√n) := by
  have hle := Nat.sqrt_le n
  have hlt := Nat.lt_succ_sqrt n
  generalize n.sqrt = r at hle hlt ⊢
  obtain ⟨k, rfl⟩ := Nat.exists_eq_add_of_le hle
  have hr : (0 : ℝ) ≤ r := Nat.cast_nonneg r
  have hk : k < 2 * r + 1 := by
    rw [Nat.succ_mul_succ] at hlt
    omega
  have hk' : (k : ℝ) < 2 * r + 1 := by exact_mod_cast hk
  rw [Nat.add_sub_cancel_left]
  push_cast
  split_ifs with hzero hhalf
  · subst hzero
    show √((r : ℝ) * r + (0 : ℕ)) = r
    rw [Nat.cast_zero, add_zero, Real.sqrt_mul_self hr]
  · have hpos : (0 : ℝ) < k := by exact_mod_cast Nat.pos_of_ne_zero hzero
    have hhalf : (k : ℝ) ≤ r := by exact_mod_cast hhalf
    have hbelow : √((r : ℝ) * r + k) < r + 1 / 2 :=
      (Real.sqrt_lt' (by linarith)).2 (by nlinarith)
    exact ⟨(Real.lt_sqrt hr).2 (by linarith), by linarith⟩
  · have hhalf : (r : ℝ) + 1 ≤ k := by exact_mod_cast Nat.lt_of_not_le hhalf
    have habove : r + 1 / 2 < √((r : ℝ) * r + k) :=
      (Real.lt_sqrt (by linarith)).2 (by nlinarith)
    exact ⟨by linarith, (Real.sqrt_lt' (by linarith)).2 (by nlinarith)⟩

/-- A root is the root of the reading, put together. -/
theorem sqrt_eq_packed (x : Binary64) :
    Scalar.sqrt x = packed (UnpackedFloat.sqrt Format.binary64 x.reading) := by
  rw [← unpack_toModel]
  rfl

/-- The root of a significand, on an exponent that leaves enough bits. -/
theorem exists_of_sqrtCore {m : ℕ} (hm : 0 < m) (e : ℤ) :
    ∃ t : ℤ, ∃ k : ℕ, ∃ acc,
      UnpackedFloat.sqrtCore Format.binary64 m e = (Nat.sqrt (m <<< k), t, acc)
        ∧ Locates acc (Nat.sqrt (m <<< k)) (√((m <<< k : ℕ) : ℝ))
        ∧ e - k = 2 * t ∧ 0 < Nat.sqrt (m <<< k) ∧ t ≤ exponentFor (Nat.sqrt (m <<< k)) t := by
  obtain ⟨t, ht⟩ : ∃ t : ℤ, t = min (e.ediv 2)
    (Format.binary64.targetExponent ((totalExponent m e + 1).ediv 2)) := ⟨_, rfl⟩
  have hdiv : e.ediv 2 = e / 2 := rfl
  have htarget : Format.binary64.targetExponent ((totalExponent m e + 1).ediv 2)
      = max ((m.log2 + 1 + e + 1) / 2 - 53) (-1074) := rfl
  obtain ⟨k, hk⟩ : ∃ k : ℕ, k = (e - 2 * t).toNat := ⟨_, rfl⟩
  have hshift : 0 < m <<< k := by
    rw [Nat.shiftLeft_eq]
    positivity
  have hroot : 2 ^ ((m.log2 + k) / 2) ≤ Nat.sqrt (m <<< k) := by
    rw [Nat.le_sqrt', ← pow_mul, ← log2_shiftLeft hm, ← Nat.le_log2 (Nat.ne_of_gt hshift)]
    omega
  have hpos : 0 < Nat.sqrt (m <<< k) := lt_of_lt_of_le (by positivity) hroot
  refine ⟨t, k, _, ?_, locates_sqrt _, by omega, hpos, ?_⟩
  · unfold UnpackedFloat.sqrtCore
    dsimp only
    rw [← ht, ← hk]
  · rw [← Nat.le_log2 (Nat.ne_of_gt hpos)] at hroot
    unfold exponentFor
    omega

/-- **A root is rounded.** -/
theorem isRounded_sqrt {x : Binary64} (hx : x.IsFinite) (hsign : 0 ≤ x.grade) :
    (Scalar.sqrt x).IsRounded (√x.value) := by
  rw [sqrt_eq_packed]
  obtain ⟨-, hrx⟩ | ⟨hmag, hpos, hrx⟩ := hx.reading_cases
  · rw [value_of_zero hrx, Real.sqrt_zero, hrx]
    exact isRounded_zero _
  · have hsx : x.sign = .positive := sign_eq_of_apply_nonneg hmag hsign
    obtain ⟨t, k, acc, hcore, hloc, hexp, hroot, htarget⟩ := exists_of_sqrtCore hpos x.exponent
    have hvalue : √x.value
        = ((Sign.positive.apply 1 : ℤ) : ℝ) * (√((x.significand <<< k : ℕ) : ℝ) * 2 ^ t) := by
      have hone : ((Sign.positive.apply 1 : ℤ) : ℝ) = 1 := Int.cast_one
      have hsq : (2 : ℝ) ^ (x.exponent - k) = (2 ^ t) ^ 2 := by
        rw [hexp, two_mul, zpow_add₀ two_ne_zero, sq]
      rw [value_of_finite hrx, hsx, cast_apply, hone, one_mul, one_mul, Int.cast_natCast,
        ← shiftLeft_mul_zpow x.significand x.exponent k, hsq, Real.sqrt_mul (Nat.cast_nonneg _),
        Real.sqrt_sq (by positivity)]
    rw [hvalue, hrx, hsx]
    unfold UnpackedFloat.sqrt
    dsimp only
    rw [hcore]
    exact isRounded_roundWithAccuracy _ hroot hloc htarget

/-! ## Rounded operands -/

/-- **A finite pattern that is off by at most `e`.** -/
structure IsNear (x : Binary64) (v e : ℝ) : Prop where
  /-- The pattern is finite. -/
  isFinite : x.IsFinite
  /-- Its value is off by no more. -/
  abs_sub_le : |x.value - v| ≤ e

/-- A finite pattern is not off its value. -/
theorem isNear_value {x : Binary64} (h : x.IsFinite) : x.IsNear x.value 0 :=
  ⟨h, by rw [sub_self, abs_zero]⟩

/-- A larger error is allowed. -/
theorem IsNear.mono {x : Binary64} {v e e' : ℝ} (h : x.IsNear v e) (hle : e ≤ e') :
    x.IsNear v e' :=
  ⟨h.isFinite, h.abs_sub_le.trans hle⟩

/-- **The error of rounding what is already off.** -/
theorem IsRounded.isNear {x : Binary64} {v w e : ℝ} (h : x.IsRounded w) (hw : |w - v| ≤ e)
    (hle : |v| + e ≤ overflow) :
    x.IsNear v (unitRoundoff * (|v| + e) + underflow + e) := by
  have habs : |w| ≤ |v| + e := by linarith [abs_sub_abs_le_abs_sub w v]
  have hfin := h.isFinite (habs.trans hle)
  have hu := unitRoundoff_pos
  refine ⟨hfin, ?_⟩
  calc |x.value - v| = |x.value - w + (w - v)| := by ring_nf
    _ ≤ |x.value - w| + |w - v| := abs_add_le _ _
    _ ≤ unitRoundoff * |w| + underflow + e := add_le_add (h.abs_sub_le hfin) hw
    _ ≤ unitRoundoff * (|v| + e) + underflow + e := by gcongr

/-- A sum. -/
theorem IsNear.add {x y : Binary64} {v w a b : ℝ} (hx : x.IsNear v a) (hy : y.IsNear w b)
    (hle : |v + w| + (a + b) ≤ overflow) :
    (x + y).IsNear (v + w) (unitRoundoff * (|v + w| + (a + b)) + underflow + (a + b)) := by
  refine (isRounded_add hx.isFinite hy.isFinite).isNear ?_ hle
  rw [add_sub_add_comm]
  exact (abs_add_le _ _).trans (add_le_add hx.abs_sub_le hy.abs_sub_le)

/-- A product with a number that is not off. -/
theorem IsNear.const_mul {x y : Binary64} {w b : ℝ} (hx : x.IsFinite) (hy : y.IsNear w b)
    (hle : |x.value * w| + |x.value| * b ≤ overflow) :
    (x * y).IsNear (x.value * w)
      (unitRoundoff * (|x.value * w| + |x.value| * b) + underflow + |x.value| * b) := by
  refine (isRounded_mul hx hy.isFinite).isNear ?_ hle
  rw [← mul_sub, abs_mul]
  exact mul_le_mul_of_nonneg_left hy.abs_sub_le (abs_nonneg _)

/-! ## Finite results -/

/-- What is put together to a finite pattern is finite. -/
theorem isFinite_of_isFinite_packed {u : UnpackedFloat} (h : (packed u).IsFinite) :
    u.isFinite = true := by
  cases u with
  | notANumber => exact absurd h (by decide)
  | infinity s => cases s <;> exact absurd h (by decide)
  | _ => rfl

/-- **The terms of a finite sum are finite.** -/
theorem isFinite_of_isFinite_add {x y : Binary64} (h : (x + y).IsFinite) :
    x.IsFinite ∧ y.IsFinite := by
  rw [add_eq_packed] at h
  have h := isFinite_of_isFinite_packed h
  rw [isFinite_iff_reading, isFinite_iff_reading]
  cases hx : x.reading <;> cases hy : y.reading <;> rw [hx, hy] at h <;> first
    | exact ⟨rfl, rfl⟩
    | exact absurd h Bool.false_ne_true
    | (rename_i s t
       cases s <;> cases t <;> exact absurd h Bool.false_ne_true)

/-- **The factors of a finite product are finite.** -/
theorem isFinite_of_isFinite_mul {x y : Binary64} (h : (x * y).IsFinite) :
    x.IsFinite ∧ y.IsFinite := by
  rw [mul_eq_packed] at h
  have h := isFinite_of_isFinite_packed h
  rw [isFinite_iff_reading, isFinite_iff_reading]
  cases hx : x.reading <;> cases hy : y.reading <;> rw [hx, hy] at h <;> first
    | exact ⟨rfl, rfl⟩
    | exact absurd h Bool.false_ne_true

/-- **What has a finite root is finite and not below zero.** -/
theorem isFinite_of_isFinite_sqrt {x : Binary64} (h : (Scalar.sqrt x).IsFinite) :
    x.IsFinite ∧ 0 ≤ x.grade := by
  rw [sqrt_eq_packed] at h
  have h := isFinite_of_isFinite_packed h
  rcases x.reading_cases with ⟨-, hr⟩ | ⟨-, hr⟩ | ⟨hm, hr⟩ | ⟨-, hlt, _, hr⟩
  · rw [hr] at h
    cases hs : x.sign <;> rw [hs] at h <;> exact absurd h Bool.false_ne_true
  · rw [hr] at h
    exact absurd h Bool.false_ne_true
  · exact ⟨isFinite_iff_reading.2 (by rw [hr]; rfl), Int.le_of_eq (grade_eq_zero hm).symm⟩
  · refine ⟨isFinite_iff.2 hlt, ?_⟩
    rw [hr] at h
    unfold grade
    cases hs : x.sign with
    | negative =>
      rw [hs] at h
      exact absurd h Bool.false_ne_true
    | positive => exact Int.natCast_nonneg _

end Binary64

end ParetoSelection
