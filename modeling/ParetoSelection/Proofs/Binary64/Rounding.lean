import ParetoSelection.Proofs.Binary64.Value

/-!
# Rounding

An operation on patterns computes the exact result on their values as an integer times
a power of two – or, for a root, the integer below it and whether it is nearer to that one
or to the next (`Locates`) – and rounds that to the nearest pattern. Rounding shifts bits
out to the right, and each shift keeps what is known about the part that is cut off
(`locates_shiftRightOne`), so in the end the integer is off by at most one half
(`Locates.abs_roundToNearestEven_sub_le`). What one half is worth depends on the exponent:
at most `unitRoundoff` of the number, or, where the exponent cannot be any smaller,
`underflow`.

`IsRounded x v` says this of a pattern `x` and a real number `v`: if `x` is finite it is
that close to `v`, and if `v` is not too large `x` is finite. The two are separate because
errors are followed in both directions: from small numbers on, to results that must be
finite, and from finite results back, to operands of any size. `isRounded_normalize` and
`isRounded_roundWithAccuracy` are all that the operations need.
-/

namespace ParetoSelection

namespace Binary64

open Float.Model
open UnpackedFloat (Sign Accuracy ExtendedMantissa)

/-- The largest relative error of a rounding. -/
noncomputable def unitRoundoff : ℝ := twoPow (-53)

/-- The largest error of a rounding to a number with the smallest exponent. -/
noncomputable def underflow : ℝ := twoPow (-1075)

/-- Numbers up to this one are rounded to finite numbers. -/
noncomputable def overflow : ℝ := twoPow 1022

/-- **A pattern that is a real number rounded.** -/
structure IsRounded (x : Binary64) (v : ℝ) : Prop where
  /-- A finite pattern is close to the number. -/
  abs_sub_le : x.IsFinite → |x.value - v| ≤ unitRoundoff * |v| + underflow
  /-- The pattern is finite unless the number is large. -/
  isFinite : |v| ≤ overflow → x.IsFinite

theorem unitRoundoff_pos : 0 < unitRoundoff :=
  twoPow_pos _

theorem underflow_pos : 0 < underflow :=
  twoPow_pos _

theorem one_le_overflow : 1 ≤ overflow :=
  one_le_zpow₀ one_le_two (by norm_num)

/-- A finite pattern is its own value, rounded. -/
theorem isRounded_value {x : Binary64} (h : x.IsFinite) : x.IsRounded x.value where
  abs_sub_le _ := by
    have hu := unitRoundoff_pos
    have hη := underflow_pos
    rw [sub_self, abs_zero]
    positivity
  isFinite _ := h

/-- Zero is zero, rounded. -/
theorem isRounded_zero (s : Sign) : (packed (.zero s)).IsRounded 0 := by
  have hparts : (packed (.zero s)).IsFinite ∧ (packed (.zero s)).value = 0 := by
    cases s <;> exact ⟨by decide, rfl⟩
  have hround := isRounded_value hparts.1
  rwa [hparts.2] at hround

/-! ## Powers of two -/

/-- The same number on a smaller exponent. -/
theorem shiftLeft_mul_zpow (m : ℕ) (e : ℤ) (k : ℕ) :
    ((m <<< k : ℕ) : ℝ) * 2 ^ (e - k) = m * 2 ^ e := by
  rw [Nat.shiftLeft_eq, zpow_sub₀ two_ne_zero, zpow_natCast]
  push_cast
  field_simp

/-- The same number on a larger exponent. -/
theorem div_pow_mul_zpow (a : ℝ) (e : ℤ) (k : ℕ) : a / 2 ^ k * 2 ^ (e + k) = a * 2 ^ e := by
  rw [zpow_add₀ two_ne_zero, zpow_natCast]
  field_simp

/-- A shift adds to the number of bits. -/
theorem log2_shiftLeft {m : ℕ} (hm : 0 < m) (k : ℕ) : (m <<< k).log2 = m.log2 + k := by
  have hm' := Nat.ne_of_gt hm
  have hlo := Nat.log2_self_le hm'
  have hhi := Nat.lt_log2_self (n := m)
  rw [Nat.shiftLeft_eq, Nat.log2_eq_iff (by positivity)]
  constructor
  · rw [pow_add]
    exact Nat.mul_le_mul_right _ hlo
  · rw [Nat.add_right_comm, pow_add _ (m.log2 + 1)]
    exact Nat.mul_lt_mul_of_pos_right hhi (by positivity)

/-! ## The part that is cut off -/

/-- **Where a real number is** relative to the integer below it: on the integer, nearer to
it than to the next one, in the middle, or nearer to the next one. -/
def Locates : Accuracy → ℕ → ℝ → Prop
  | .exact, m, a => a = m
  | .inexact .lt, m, a => m < a ∧ a - m < m + 1 - a
  | .inexact .eq, m, a => a - m = m + 1 - a
  | .inexact .gt, m, a => m + 1 - a < a - m ∧ a < m + 1

/-- An integer is on itself. -/
theorem locates_exact (m : ℕ) : Locates .exact m m :=
  rfl

/-- The integer is the one below. -/
theorem Locates.bounds {acc : Accuracy} {m : ℕ} {a : ℝ} (h : Locates acc m a) :
    m ≤ a ∧ a < m + 1 := by
  rcases acc with _ | _ | _ | _ <;> simp only [Locates] at h <;> constructor <;> linarith

/-- Rounding stays or goes up by one. -/
theorem roundToNearestEven_bounds (acc : Accuracy) (m : ℕ) :
    m ≤ acc.roundToNearestEven m ∧ acc.roundToNearestEven m ≤ m + 1 := by
  rcases acc with _ | _ | _ | _ <;> simp only [Accuracy.roundToNearestEven] <;> omega

/-- **Rounding to an integer is off by at most one half.** -/
theorem Locates.abs_roundToNearestEven_sub_le {acc : Accuracy} {m : ℕ} {a : ℝ}
    (h : Locates acc m a) : |(acc.roundToNearestEven m : ℝ) - a| ≤ 1 / 2 := by
  have hmod : ((m % 2 : ℕ) : ℝ) ≤ 1 := by
    exact_mod_cast Nat.le_of_lt_succ (Nat.mod_lt m two_pos)
  have hmod' : (0 : ℝ) ≤ ((m % 2 : ℕ) : ℝ) := Nat.cast_nonneg _
  rcases acc with _ | _ | _ | _ <;> simp only [Locates] at h <;>
    simp only [Accuracy.roundToNearestEven] <;> push_cast at * <;> rw [abs_le] <;>
    constructor <;> linarith

/-- **One bit less.** The bit that is cut off becomes the first one behind the point, and
all others are told from zero only. -/
theorem locates_shiftRightOne {em : ExtendedMantissa} {a : ℝ}
    (h : Locates em.accuracy em.mantissa a) :
    Locates em.shiftRightOne.accuracy em.shiftRightOne.mantissa (a / 2) := by
  obtain ⟨m, roundBit, stickyBit⟩ := em
  obtain ⟨k, rfl | rfl⟩ := Nat.even_or_odd' m
  · have hdiv : 2 * k / 2 = k := by omega
    have hmod : 2 * k % 2 = 0 := by omega
    cases roundBit <;> cases stickyBit <;>
      simp [ExtendedMantissa.shiftRightOne, ExtendedMantissa.accuracy, Locates, hdiv, hmod]
        at h ⊢ <;>
      first | linarith | (constructor <;> linarith)
  · have hdiv : (2 * k + 1) / 2 = k := by omega
    have hmod : (2 * k + 1) % 2 = 1 := by omega
    cases roundBit <;> cases stickyBit <;>
      simp [ExtendedMantissa.shiftRightOne, ExtendedMantissa.accuracy, Locates, hdiv, hmod]
        at h ⊢ <;>
      first | linarith | (constructor <;> linarith)

/-- Any number of bits less. -/
theorem locates_shiftRight {em : ExtendedMantissa} {a : ℝ}
    (h : Locates em.accuracy em.mantissa a) (n : ℕ) :
    Locates (em >>> n).accuracy (em >>> n).mantissa (a / 2 ^ n) := by
  induction n with
  | zero =>
    rw [pow_zero, div_one]
    exact h
  | succ n ih =>
    rw [pow_succ, ← div_div]
    exact locates_shiftRightOne ih

/-- What is known at first is put into the two bits. -/
theorem locates_ofMantissaAndAccuracy {acc : Accuracy} {m : ℕ} {a : ℝ} (h : Locates acc m a) :
    Locates (ExtendedMantissa.ofMantissaAndAccuracy m acc).accuracy
      (ExtendedMantissa.ofMantissaAndAccuracy m acc).mantissa a := by
  rcases acc with _ | _ | _ | _ <;> exact h

/-! ## Rounding to 53 bits -/

/-- **The exponent that a number is rounded to**, given its significand and its
exponent. -/
def exponentFor (m : ℕ) (e : ℤ) : ℤ :=
  max (m.log2 + e - 52) (-1074)

/-- It is the one that the format asks for. -/
theorem targetExponent_totalExponent (m : ℕ) (e : ℤ) :
    Format.binary64.targetExponent (totalExponent m e) = exponentFor m e := by
  show max ((m.log2 : ℤ) + 1 + e - 53) (-1074) = max (m.log2 + e - 52) (-1074)
  congr 1
  omega

/-- Shifting to it. -/
theorem shiftToTargetExponent_eq (m : ℕ) (e : ℤ) (acc : Accuracy) :
    UnpackedFloat.shiftToTargetExponent Format.binary64 m e acc
      = (ExtendedMantissa.ofMantissaAndAccuracy m acc >>> (exponentFor m e - e).toNat,
        e + (exponentFor m e - e).toNat) := by
  unfold UnpackedFloat.shiftToTargetExponent UnpackedFloat.shiftToExponent
  dsimp only
  rw [targetExponent_totalExponent]

/-- A significand that fits is not shifted. -/
theorem shiftToTargetExponent_of_lt {m : ℕ} {e : ℤ} (hm : m < 2 ^ 53) (he : -1074 ≤ e) :
    UnpackedFloat.shiftToTargetExponent Format.binary64 m e .exact = (⟨m, false, false⟩, e) := by
  have hlog : m.log2 ≤ 52 := by
    obtain rfl | hpos := Nat.eq_zero_or_pos m
    · decide
    · exact Nat.le_of_lt_succ ((Nat.log2_lt (Nat.ne_of_gt hpos)).2 hm)
  have hshift : (exponentFor m e - e).toNat = 0 := by
    unfold exponentFor
    omega
  rw [shiftToTargetExponent_eq, hshift, Int.natCast_zero, Int.add_zero]
  rfl

/-- One that was rounded up to 54 bits is shifted once, and nothing is lost. -/
theorem shiftToTargetExponent_of_carry {e : ℤ} (he : -1074 ≤ e) :
    UnpackedFloat.shiftToTargetExponent Format.binary64 (2 ^ 53) e .exact
      = (⟨2 ^ 52, false, false⟩, e + 1) := by
  have hlog : (2 ^ 53 : ℕ).log2 = 53 := Nat.log2_two_pow
  have hshift : (exponentFor (2 ^ 53) e - e).toNat = 1 := by
    unfold exponentFor
    omega
  rw [shiftToTargetExponent_eq, hshift]
  rfl

section Rounding

variable {m : ℕ} {e : ℤ} {acc : Accuracy} {a : ℝ}

/-- A located number has as many bits as the integer below it. -/
theorem Locates.log2_bounds (hm : 0 < m) (ha : Locates acc m a) :
    (2 : ℝ) ^ m.log2 ≤ a ∧ a < 2 ^ (m.log2 + 1) := by
  constructor
  · exact le_trans (by exact_mod_cast Nat.log2_self_le (Nat.ne_of_gt hm)) ha.bounds.1
  · exact lt_of_lt_of_le ha.bounds.2 (by exact_mod_cast Nat.lt_log2_self)

/-- A number that is not too large is rounded to an exponent that is not. -/
theorem exponentFor_le (hm : 0 < m) (ha : Locates acc m a) (h : a * 2 ^ e ≤ overflow) :
    exponentFor m e ≤ 970 := by
  by_contra hgt
  have hexp : (1022 : ℤ) < m.log2 + e := by
    unfold exponentFor at hgt
    omega
  have hlt : overflow < 2 ^ ((m.log2 : ℤ) + e) :=
    zpow_lt_zpow_right₀ one_lt_two hexp
  have hle : (2 : ℝ) ^ ((m.log2 : ℤ) + e) ≤ a * 2 ^ e := by
    rw [zpow_add₀ two_ne_zero, zpow_natCast]
    exact mul_le_mul_of_nonneg_right (ha.log2_bounds hm).1 (by positivity)
  exact absurd (lt_of_lt_of_le hlt hle) (not_lt.2 h)

/-- **What one half of the last place is worth.** -/
theorem half_zpow_exponentFor_le (hm : 0 < m) (ha : Locates acc m a) :
    (2 : ℝ) ^ exponentFor m e / 2 ≤ unitRoundoff * (a * 2 ^ e) + underflow := by
  have hhalf : (2 : ℝ) ^ exponentFor m e / 2 = 2 ^ (exponentFor m e - 1) := by
    rw [zpow_sub_one₀ two_ne_zero]
    rfl
  have hlo := (ha.log2_bounds hm).1
  have hu := unitRoundoff_pos
  have hη := underflow_pos
  have ha0 : 0 ≤ a := le_trans (by positivity) hlo
  rw [hhalf]
  by_cases hmin : exponentFor m e = -1074
  · have hunder : (2 : ℝ) ^ (exponentFor m e - 1) = underflow := by
      rw [hmin]
      rfl
    rw [hunder]
    exact le_add_of_nonneg_left (by positivity)
  · have hexp : exponentFor m e - 1 = -53 + (m.log2 + e) := by
      unfold exponentFor at hmin ⊢
      omega
    calc (2 : ℝ) ^ (exponentFor m e - 1) = unitRoundoff * (2 ^ m.log2 * 2 ^ e) := by
          rw [hexp, zpow_add₀ two_ne_zero, zpow_add₀ two_ne_zero, zpow_natCast]
          rfl
      _ ≤ unitRoundoff * (a * 2 ^ e) := by gcongr
      _ ≤ unitRoundoff * (a * 2 ^ e) + underflow := le_add_of_nonneg_right hη.le

/-- A number with more than 53 bits has 53 after the shift, and fewer only on the
smallest exponent. -/
theorem mantissa_bounds (hm : 0 < m) (ha : Locates acc m a) {em : ExtendedMantissa} {k : ℕ}
    (hem : Locates em.accuracy em.mantissa (a / 2 ^ k)) (hk : e + k = exponentFor m e) :
    em.mantissa < 2 ^ 53 ∧ (2 ^ 52 ≤ em.mantissa ∨ exponentFor m e = -1074) := by
  obtain ⟨hlo, hhi⟩ := ha.log2_bounds hm
  obtain ⟨hfloor, hceil⟩ := hem.bounds
  have hpow : (0 : ℝ) < 2 ^ k := by positivity
  unfold exponentFor at hk ⊢
  constructor
  · have hlt : a / 2 ^ k < 2 ^ 53 := by
      rw [div_lt_iff₀ hpow, ← pow_add]
      exact lt_of_lt_of_le hhi (pow_le_pow_right₀ one_le_two (by omega))
    exact_mod_cast lt_of_le_of_lt hfloor hlt
  · refine or_iff_not_imp_right.2 fun hne => ?_
    have hle : (2 : ℝ) ^ 52 ≤ a / 2 ^ k := by
      rw [le_div_iff₀ hpow, ← pow_add]
      exact le_trans (pow_le_pow_right₀ one_le_two (by omega)) hlo
    exact Nat.le_of_lt_succ (by exact_mod_cast lt_of_le_of_lt hle hceil)

/-- **Rounding a located number.** The result is off by half of its last place, whether
or not the significand is carried into another bit. -/
theorem exists_of_roundWithAccuracy (s : Sign) (hm : 0 < m) (ha : Locates acc m a)
    (he : e ≤ exponentFor m e) :
    ∃ m' e', IsCanonical m' e'
      ∧ UnpackedFloat.roundWithAccuracy Format.binary64 s m e acc = ofParts s m' e'
      ∧ |(m' : ℝ) * 2 ^ e' - a * 2 ^ e| ≤ unitRoundoff * (a * 2 ^ e) + underflow
      ∧ (a * 2 ^ e ≤ overflow → e' ≤ 971) := by
  obtain ⟨k, hk⟩ := Int.eq_ofNat_of_zero_le (Int.sub_nonneg_of_le he)
  have hk' : e + k = exponentFor m e := by omega
  have hem := locates_shiftRight (locates_ofMantissaAndAccuracy ha) k
  have hexp (h : a * 2 ^ e ≤ overflow) := exponentFor_le hm ha h
  have hmin : -1074 ≤ exponentFor m e := le_max_right _ _
  unfold UnpackedFloat.roundWithAccuracy
  rw [shiftToTargetExponent_eq, hk, Int.toNat_natCast, hk']
  dsimp only
  generalize ExtendedMantissa.ofMantissaAndAccuracy m acc >>> k = em at hem ⊢
  obtain ⟨hlt, hnormal⟩ := mantissa_bounds hm ha hem hk'
  obtain ⟨hdown, hup⟩ := roundToNearestEven_bounds em.accuracy em.mantissa
  have hhalf : |(em.roundedMantissa : ℝ) - a / 2 ^ k| ≤ 1 / 2 :=
    hem.abs_roundToNearestEven_sub_le
  have hpos : (0 : ℝ) < 2 ^ exponentFor m e := by positivity
  have herror : |(em.roundedMantissa : ℝ) * 2 ^ exponentFor m e - a * 2 ^ e|
      ≤ unitRoundoff * (a * 2 ^ e) + underflow :=
    calc |(em.roundedMantissa : ℝ) * 2 ^ exponentFor m e - a * 2 ^ e|
        = |(em.roundedMantissa : ℝ) - a / 2 ^ k| * 2 ^ exponentFor m e := by
          rw [← div_pow_mul_zpow a e k, hk', ← sub_mul, abs_mul, abs_of_pos hpos]
      _ ≤ 1 / 2 * 2 ^ exponentFor m e := mul_le_mul_of_nonneg_right hhalf hpos.le
      _ = 2 ^ exponentFor m e / 2 := by ring
      _ ≤ unitRoundoff * (a * 2 ^ e) + underflow := half_zpow_exponentFor_le hm ha
  have hrounded : em.accuracy.roundToNearestEven em.mantissa = em.roundedMantissa := rfl
  rw [hrounded] at hdown hup
  obtain hle | hcarry := Nat.lt_or_ge em.roundedMantissa (2 ^ 53)
  · rw [shiftToTargetExponent_of_lt hle hmin]
    exact ⟨_, _, ⟨hle, hmin, by omega⟩, rfl, herror, fun h => (hexp h).trans (by decide)⟩
  · have hcarry : em.roundedMantissa = 2 ^ 53 := by omega
    rw [hcarry] at herror ⊢
    rw [shiftToTargetExponent_of_carry hmin]
    refine ⟨2 ^ 52, exponentFor m e + 1, ⟨by decide, by omega, .inl (Nat.le_refl _)⟩, rfl, ?_,
      fun h => Int.add_le_add_right (hexp h) 1⟩
    have hshift : ((2 ^ 52 : ℕ) : ℝ) * 2 ^ (exponentFor m e + 1)
        = ((2 ^ 53 : ℕ) : ℝ) * 2 ^ exponentFor m e := by
      rw [zpow_add_one₀ two_ne_zero]
      push_cast
      ring
    rw [hshift]
    exact herror

/-- **A located number is rounded.** -/
theorem isRounded_roundWithAccuracy (s : Sign) (hm : 0 < m) (ha : Locates acc m a)
    (he : e ≤ exponentFor m e) :
    (packed (UnpackedFloat.roundWithAccuracy Format.binary64 s m e acc)).IsRounded
      ((s.apply 1 : ℤ) * (a * 2 ^ e)) := by
  obtain ⟨m', e', hparts, hround, herror, hexp⟩ := exists_of_roundWithAccuracy s hm ha he
  have hreading := reading_packed_ofParts s hparts
  have hnonneg : 0 ≤ a * 2 ^ e :=
    mul_nonneg (le_trans (Nat.cast_nonneg _) ha.bounds.1) (by positivity)
  have habs : |((s.apply 1 : ℤ) : ℝ) * (a * 2 ^ e)| = a * 2 ^ e := by
    rw [abs_mul, abs_cast_apply_one, one_mul, abs_of_nonneg hnonneg]
  rw [hround]
  constructor
  · intro hfin
    rw [isFinite_iff_reading, hreading] at hfin
    rw [value, hreading, habs]
    split_ifs at hfin ⊢ with hle
    · rw [realOf_ofParts, cast_apply, Int.cast_natCast, mul_assoc, ← mul_sub, abs_mul,
        abs_cast_apply_one, one_mul]
      exact herror
    · cases hfin
  · intro hle
    rw [habs] at hle
    rw [isFinite_iff_reading, hreading, if_pos (hexp hle)]
    exact isFinite_ofParts s m' e'

end Rounding

/-- **A natural number times a power of two is rounded.** -/
theorem isRounded_round (s : Sign) {m : ℕ} (hm : 0 < m) (e : ℤ) :
    (packed (UnpackedFloat.round Format.binary64 s m e)).IsRounded
      ((s.apply 1 : ℤ) * (m * 2 ^ e)) := by
  unfold UnpackedFloat.round UnpackedFloat.decreaseExponent
  dsimp only
  rw [targetExponent_totalExponent]
  obtain ⟨k, hk⟩ : ∃ k : ℕ, k = (e - exponentFor m e).toNat := ⟨_, rfl⟩
  have hpos : 0 < m <<< k := by
    rw [Nat.shiftLeft_eq]
    positivity
  rw [← hk, ← shiftLeft_mul_zpow m e k]
  refine isRounded_roundWithAccuracy s hpos (locates_exact _) ?_
  unfold exponentFor at hk ⊢
  rw [log2_shiftLeft hm]
  omega

/-- **An integer times a power of two is rounded.** -/
theorem isRounded_normalize (n e : ℤ) (zeroSign : Sign) :
    (packed (UnpackedFloat.normalize Format.binary64 n e zeroSign)).IsRounded (n * 2 ^ e) := by
  unfold UnpackedFloat.normalize
  rcases Int.lt_trichotomy n 0 with hlt | rfl | hgt
  · obtain ⟨m, rfl⟩ : ∃ m : ℕ, n = -m := ⟨(-n).toNat, by omega⟩
    have hround := isRounded_round .negative (m := m) (by omega) e
    have hvalue : ((Sign.negative.apply 1 : ℤ) : ℝ) * (m * 2 ^ e) = ((-m : ℤ) : ℝ) * 2 ^ e := by
      simp [Sign.apply]
    rw [compare_lt_iff_lt.2 hlt]
    dsimp only
    rwa [Int.neg_neg, Int.toNat_natCast, ← hvalue]
  · rw [compare_eq_iff_eq.2 rfl, Int.cast_zero, zero_mul]
    exact isRounded_zero zeroSign
  · obtain ⟨m, rfl⟩ : ∃ m : ℕ, n = m := ⟨n.toNat, by omega⟩
    have hround := isRounded_round .positive (m := m) (by omega) e
    have hvalue : ((Sign.positive.apply 1 : ℤ) : ℝ) * (m * 2 ^ e) = ((m : ℤ) : ℝ) * 2 ^ e := by
      simp [Sign.apply]
    rw [compare_gt_iff_gt.2 hgt]
    dsimp only
    rwa [Int.toNat_natCast, ← hvalue]

end Binary64

end ParetoSelection
