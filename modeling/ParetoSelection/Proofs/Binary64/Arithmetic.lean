import ParetoSelection.Proofs.Binary64.Reading

/-!
# The signs of differences, products and quotients

Rounding does not change the side of zero that a result is on. A reading
*leans* to a sign if it is zero or has that sign (`Leans`); rounding to a
format keeps the lean (`leans_round`), and so does packing. It follows that the
difference of two finite numbers is never on the wrong side of zero
(`grade_sub`), that the product of two numbers that are not negative is not
negative (`grade_mul_nonneg`), and their quotient neither unless one divides by zero
(`grade_div_nonneg`). How large a result is, is not asked here.
-/

namespace ParetoSelection

namespace Binary64

open Float.Model
open UnpackedFloat (Sign)

/-- **A number that is zero or has the given sign.** -/
def Leans (s : Sign) : UnpackedFloat → Prop
  | .notANumber => False
  | .infinity t => t = s
  | .zero _ => True
  | .finite t _ _ _ => t = s

/-- Flipping a sign twice. -/
theorem apply_apply (s : Sign) (n : Int) : s.apply (s.apply n) = n := by
  cases s with
  | negative => exact Int.neg_neg n
  | positive => rfl

/-- Applying a sign commutes with negation. -/
theorem neg_apply (s : Sign) (n : Int) : (-s).apply n = -s.apply n := by
  cases s with
  | negative => exact (Int.neg_neg n).symm
  | positive => rfl

/-- The sign can be told from which side of zero a number is on. -/
theorem sign_eq_of_apply_nonneg {s t : Sign} {m : Nat} (hm : 0 < m)
    (h : 0 ≤ s.apply (t.apply m)) : t = s := by
  cases s <;> cases t <;> simp only [Sign.apply] at h
  · rfl
  · omega
  · omega
  · rfl

/-- A pattern of magnitude zero has grade zero. -/
theorem grade_eq_zero {x : Binary64} (h : x.magnitude = 0) : x.grade = 0 := by
  rw [grade, h]
  cases x.sign <;> rfl

/-! ## Packing -/

/-- The grade of a pattern put together from its parts. -/
theorem apply_grade_ofComponents (s : Sign) (e : BitVec 11) (m : BitVec 52) :
    s.apply (ofComponents s e m).grade = e.toNat * 2 ^ 52 + m.toNat := by
  rw [grade, sign_ofComponents, magnitude_ofComponents, apply_apply]
  rfl

/-- **Packing keeps the lean** of a number, and a number stays one. -/
theorem isNumber_packed {s : Sign} {u : UnpackedFloat} (h : Leans s u) :
    (packed u).IsNumber ∧ 0 ≤ s.apply (packed u).grade := by
  have hparts (e : BitVec 11) (m : BitVec 52)
      (hnumber : e.toNat * 2 ^ 52 + m.toNat ≤ infiniteMagnitude) :
      (ofComponents s e m).IsNumber ∧ 0 ≤ s.apply (ofComponents s e m).grade := by
    rw [IsNumber, magnitude_ofComponents, apply_grade_ofComponents]
    exact ⟨hnumber, by omega⟩
  have hinf : infiniteMagnitude = 2047 * 2 ^ 52 := rfl
  cases u with
  | notANumber => exact absurd h id
  | infinity t =>
    obtain rfl : t = s := h
    exact hparts (-1#11) 0 (Nat.le_refl _)
  | zero t =>
    show (ofComponents t 0 0).IsNumber ∧ 0 ≤ s.apply (ofComponents t 0 0).grade
    cases s <;> cases t <;> decide
  | finite t m e hm =>
    obtain rfl : t = s := h
    unfold packed UnpackedFloat.pack
    dsimp only
    split_ifs with hover hnormal
    · exact hparts (-1#11) 0 (Nat.le_refl _)
    · refine hparts _ _ ?_
      have hfraction : (BitVec.ofNat 52 m).toNat < 2 ^ 52 := BitVec.isLt _
      rw [BitVec.toNat_ofNat]
      omega
    · refine hparts _ _ ?_
      have hfraction : (BitVec.ofNat 52 m).toNat < 2 ^ 52 := BitVec.isLt _
      rw [BitVec.toNat_ofNat]
      omega

/-! ## Rounding -/

/-- Rounding keeps the sign. -/
theorem leans_roundWithAccuracy (format : Format) (s : Sign) (m : Nat) (e : Int)
    (accuracy : UnpackedFloat.Accuracy) :
    Leans s (UnpackedFloat.roundWithAccuracy format s m e accuracy) := by
  unfold UnpackedFloat.roundWithAccuracy
  dsimp only
  split
  · exact trivial
  · rfl

/-- Rounding an exact result keeps its lean. -/
theorem leans_normalize (format : Format) {s zeroSign : Sign} {m : Int} (e : Int)
    (h : 0 ≤ s.apply m) : Leans s (UnpackedFloat.normalize format m e zeroSign) := by
  unfold UnpackedFloat.normalize
  rcases Int.lt_trichotomy m 0 with hlt | heq | hgt
  · rw [compare_lt_iff_lt.2 hlt]
    cases s with
    | negative => exact leans_roundWithAccuracy _ _ _ _ _
    | positive => exact absurd h (Int.not_le.2 hlt)
  · rw [compare_eq_iff_eq.2 heq]
    trivial
  · rw [compare_gt_iff_gt.2 hgt]
    cases s with
    | negative =>
      have h : 0 ≤ -m := h
      omega
    | positive => exact leans_roundWithAccuracy _ _ _ _ _

/-! ## Differences -/

/-- **Of two numbers on a common exponent the larger one has the larger
significand.** -/
theorem significand_shiftLeft_le {x y : Binary64} (h : x.magnitude ≤ y.magnitude) {e : Int}
    (hx : e ≤ x.exponent) :
    x.significand <<< (x.exponent - e).toNat ≤ y.significand <<< (y.exponent - e).toNat := by
  have hxlt := x.significand_lt
  have hxmod := x.significand_mod
  have hymod := y.significand_mod
  have hxnormal := x.le_significand_iff
  have hynormal := y.le_significand_iff
  have hylt := y.significand_lt
  have hex : x.exponent = max (x.magnitude / 2 ^ 52 : Nat) 1 - 1075 := rfl
  have hey : y.exponent = max (y.magnitude / 2 ^ 52 : Nat) 1 - 1075 := rfl
  have hle : x.exponent ≤ y.exponent := by omega
  rw [Nat.shiftLeft_eq, Nat.shiftLeft_eq]
  rcases Int.lt_or_eq_of_le hle with hlt | heq
  · -- the larger one is normal, and its leading bit is worth more than all of the smaller one
    have hsig : 2 ^ 52 ≤ y.significand := by omega
    obtain ⟨k, hk⟩ : ∃ k, (y.exponent - e).toNat = (x.exponent - e).toNat + 1 + k :=
      ⟨(y.exponent - x.exponent).toNat - 1, by omega⟩
    calc x.significand * 2 ^ (x.exponent - e).toNat
        ≤ 2 ^ 53 * 2 ^ (x.exponent - e).toNat := Nat.mul_le_mul_right _ (Nat.le_of_lt hxlt)
      _ = 2 ^ 52 * 2 ^ ((x.exponent - e).toNat + 1) := by rw [Nat.pow_succ]; omega
      _ ≤ 2 ^ 52 * 2 ^ ((x.exponent - e).toNat + 1 + k) :=
        Nat.mul_le_mul_left _ (Nat.pow_le_pow_right (by decide) (Nat.le_add_right _ _))
      _ ≤ y.significand * 2 ^ (y.exponent - e).toNat := by
        rw [hk]
        exact Nat.mul_le_mul_right _ hsig
  · have hsig : x.significand ≤ y.significand := by omega
    rw [heq]
    exact Nat.mul_le_mul_right _ hsig

/-- Subtraction takes the readings apart, whatever the patterns are. -/
theorem sub_eq_packed (x y : Binary64) :
    x - y = packed (UnpackedFloat.sub Format.binary64 x.reading y.reading) := by
  rw [← unpack_toModel, ← unpack_toModel]
  rfl

/-- **The difference of two finite numbers is on the side of zero that the
larger one asks for.** -/
theorem grade_sub {x y : Binary64} (hx : x.IsFinite) (hy : y.IsFinite) {s : Sign}
    (h : 0 ≤ s.apply (x.grade - y.grade)) : (x - y).IsNumber ∧ 0 ≤ s.apply (x - y).grade := by
  rw [sub_eq_packed]
  refine isNumber_packed ?_
  obtain ⟨hmx, hrx⟩ | ⟨hposx, _, hrx⟩ := hx.reading_cases
  · obtain ⟨hmy, hry⟩ | ⟨hposy, _, hry⟩ := hy.reading_cases
    · rw [hrx, hry]
      unfold UnpackedFloat.sub
      dsimp only
      split <;> exact trivial
    · rw [hrx, hry]
      refine sign_eq_of_apply_nonneg hposy ?_
      rw [grade_eq_zero hmx, Int.zero_sub, grade, ← neg_apply] at h
      exact h
  · obtain ⟨hmy, hry⟩ | ⟨hposy, _, hry⟩ := hy.reading_cases
    · rw [hrx, hry]
      refine sign_eq_of_apply_nonneg hposx ?_
      rw [grade_eq_zero hmy, Int.sub_zero, grade] at h
      exact h
    · rw [hrx, hry]
      refine leans_normalize _ _ ?_
      have hle (h : x.magnitude ≤ y.magnitude) :=
        significand_shiftLeft_le h (Int.min_le_left x.exponent y.exponent)
      have hge (h : y.magnitude ≤ x.magnitude) :=
        significand_shiftLeft_le h (Int.min_le_right x.exponent y.exponent)
      show 0 ≤ s.apply
        (x.sign.apply (x.significand <<< (x.exponent - min x.exponent y.exponent).toNat : Nat)
          - y.sign.apply (y.significand <<< (y.exponent - min x.exponent y.exponent).toNat : Nat))
      generalize x.significand <<< (x.exponent - min x.exponent y.exponent).toNat = xs at *
      generalize y.significand <<< (y.exponent - min x.exponent y.exponent).toNat = ys at *
      -- on a common exponent the significands are ordered as the magnitudes are
      unfold grade at h
      revert h
      cases x.sign <;> cases y.sign <;> cases s <;> simp only [Sign.apply] <;> intro h <;> omega

/-! ## Products -/

/-- A product is the product of the readings, put together. -/
theorem mul_eq_packed (x y : Binary64) :
    x * y = packed (UnpackedFloat.mul Format.binary64 x.reading y.reading) := by
  rw [← unpack_toModel, ← unpack_toModel]
  rfl

/-- An absolute value is that of the reading, put together. -/
theorem abs_eq_packed (x : Binary64) : Scalar.abs x = packed x.reading.abs := by
  rw [← unpack_toModel]
  rfl

/-- **The product of two finite numbers that are not negative is not
negative**, and a number. -/
theorem grade_mul_nonneg {x y : Binary64} (hx : x.IsFinite) (hy : y.IsFinite) (hx' : 0 ≤ x.grade)
    (hy' : 0 ≤ y.grade) : (x * y).IsNumber ∧ 0 ≤ (x * y).grade := by
  rw [mul_eq_packed]
  refine isNumber_packed (s := .positive) ?_
  obtain ⟨hmx, hrx⟩ | ⟨hposx, _, hrx⟩ := hx.reading_cases
  · obtain ⟨hmy, hry⟩ | ⟨hposy, _, hry⟩ := hy.reading_cases
    · rw [hrx, hry]
      exact trivial
    · rw [hrx, hry]
      exact trivial
  · obtain ⟨hmy, hry⟩ | ⟨hposy, _, hry⟩ := hy.reading_cases
    · rw [hrx, hry]
      exact trivial
    · have hsx : x.sign = .positive := sign_eq_of_apply_nonneg hposx hx'
      have hsy : y.sign = .positive := sign_eq_of_apply_nonneg hposy hy'
      rw [hrx, hry, hsx, hsy]
      exact leans_roundWithAccuracy _ _ _ _ _

/-! ## Quotients -/

/-- A quotient is the quotient of the readings, put together. -/
theorem div_eq_packed (x y : Binary64) :
    x / y = packed (UnpackedFloat.div Format.binary64 x.reading y.reading) := by
  rw [← unpack_toModel, ← unpack_toModel]
  rfl

/-- **The quotient of a finite number that is not negative by a positive one**, which
may be infinite, is not negative, and a number. -/
theorem grade_div_nonneg {x y : Binary64} (hx : x.IsFinite) (hy : y.IsNumber) (hx' : 0 ≤ x.grade)
    (hy' : 0 < y.grade) : (x / y).IsNumber ∧ 0 ≤ (x / y).grade := by
  rw [div_eq_packed]
  refine isNumber_packed (s := .positive) ?_
  have hpos : 0 < y.magnitude := by
    refine Nat.pos_of_ne_zero fun hzero => ?_
    rw [grade_eq_zero hzero] at hy'
    exact Int.lt_irrefl 0 hy'
  have hsy : y.sign = .positive := sign_eq_of_apply_nonneg hpos (Int.le_of_lt hy')
  obtain ⟨hmx, hrx⟩ | ⟨hposx, _, hrx⟩ := hx.reading_cases
  · obtain ⟨-, hry⟩ | ⟨hmy, -⟩ | ⟨hmy, -⟩ | ⟨-, -, _, hry⟩ := y.reading_cases
    · rw [hrx, hry]
      exact trivial
    · exact absurd hy (Nat.not_le_of_lt hmy)
    · exact absurd hmy (Nat.ne_of_gt hpos)
    · rw [hrx, hry]
      exact trivial
  · have hsx : x.sign = .positive := sign_eq_of_apply_nonneg hposx hx'
    obtain ⟨-, hry⟩ | ⟨hmy, -⟩ | ⟨hmy, -⟩ | ⟨-, -, _, hry⟩ := y.reading_cases
    · rw [hrx, hry]
      exact trivial
    · exact absurd hy (Nat.not_le_of_lt hmy)
    · exact absurd hmy (Nat.ne_of_gt hpos)
    · rw [hrx, hry, hsx, hsy]
      exact leans_roundWithAccuracy _ _ _ _ _

/-! ## Magnitudes -/

/-- The pattern with the positive sign and the given magnitude. -/
def ofMagnitude (n : Nat) : Binary64 :=
  ⟨UInt64.ofNat n⟩

/-- A pattern made from a magnitude has it. -/
theorem magnitude_ofMagnitude {n : Nat} (h : n < 2 ^ 63) : (ofMagnitude n).magnitude = n := by
  unfold magnitude ofMagnitude
  rw [UInt64.toNat_ofNat']
  omega

/-- A pattern made from a magnitude is positive. -/
theorem sign_ofMagnitude {n : Nat} (h : n < 2 ^ 63) : (ofMagnitude n).sign = .positive := by
  unfold sign ofMagnitude
  rw [UInt64.toNat_ofNat']
  exact if_pos (by omega)

/-- The grade of a magnitude is itself. -/
theorem grade_ofMagnitude {n : Nat} (h : n < 2 ^ 63) : (ofMagnitude n).grade = n := by
  rw [grade, sign_ofMagnitude h, magnitude_ofMagnitude h]
  rfl

/-- A magnitude leaves the sign bit free. -/
theorem magnitude_lt (x : Binary64) : x.magnitude < 2 ^ 63 :=
  Nat.mod_lt _ (by decide)

/-- **The magnitude of a number is its bits behind the sign bit.** -/
theorem abs_eq_ofMagnitude {x : Binary64} (h : x.IsNumber) :
    Scalar.abs x = ofMagnitude x.magnitude := by
  have hm := magnitude_ofMagnitude x.magnitude_lt
  have hs := sign_ofMagnitude x.magnitude_lt
  have hsig : (ofMagnitude x.magnitude).significand = x.significand := by
    rw [significand, hm, significand]
  have hexp : (ofMagnitude x.magnitude).exponent = x.exponent := by
    rw [exponent, hm, exponent]
  have hnumber : (ofMagnitude x.magnitude).IsNumber := by
    rw [IsNumber, hm]
    exact h
  rw [abs_eq_packed, ← packed_reading hnumber]
  refine congrArg packed ?_
  obtain ⟨hmx, hrx⟩ | ⟨hmx, -⟩ | ⟨hmx, hrx⟩ | ⟨hpos, hlt, _, hrx⟩ := x.reading_cases
  · rw [hrx, reading_of_infinite (hm.trans hmx), hs]
    rfl
  · exact absurd h (Nat.not_le_of_lt hmx)
  · rw [hrx, reading_of_zero (hm.trans hmx), hs]
    rfl
  · rw [← hm] at hpos hlt
    have hfinite := reading_of_between hpos hlt
    rw [hs, hsig, hexp] at hfinite
    obtain ⟨_, hr⟩ := hfinite
    rw [hr, hrx]
    rfl

/-- The magnitude of a number, as a grade. -/
theorem grade_abs {x : Binary64} (h : x.IsNumber) :
    (Scalar.abs x).IsNumber ∧ (Scalar.abs x).grade = x.grade.natAbs := by
  rw [abs_eq_ofMagnitude h, grade_ofMagnitude x.magnitude_lt, IsNumber,
    magnitude_ofMagnitude x.magnitude_lt, grade]
  refine ⟨h, ?_⟩
  cases x.sign <;> simp [Sign.apply]

/-- A number that is not negative has the grade of its magnitude. -/
theorem grade_abs_of_nonneg {x : Binary64} (h : x.IsNumber) (hx : 0 ≤ x.grade) :
    (Scalar.abs x).IsNumber ∧ (Scalar.abs x).grade = x.grade := by
  obtain ⟨hnumber, hgrade⟩ := grade_abs h
  exact ⟨hnumber, hgrade.trans (Int.natAbs_of_nonneg hx)⟩

/-- **The larger of two magnitudes.** -/
theorem maxNum_ofMagnitude {m n : Nat} (hm : m ≤ infiniteMagnitude) (hn : n ≤ infiniteMagnitude) :
    Scalar.maxNum (ofMagnitude m) (ofMagnitude n) = ofMagnitude (max m n) := by
  have hinf : infiniteMagnitude < 2 ^ 63 := by decide
  have hm' : (ofMagnitude m).IsNumber := by
    rw [IsNumber, magnitude_ofMagnitude (by omega)]
    exact hm
  have hn' : (ofMagnitude n).IsNumber := by
    rw [IsNumber, magnitude_ofMagnitude (by omega)]
    exact hn
  have hself : (ofMagnitude m != ofMagnitude m) = false := by
    rw [bne, (beq_iff hm' hm').2 rfl]
    rfl
  have hlt : ofMagnitude m < ofMagnitude n ↔ m < n := by
    rw [lt_iff hm' hn', grade_ofMagnitude (by omega), grade_ofMagnitude (by omega), Int.ofNat_lt]
  rw [Scalar.maxNum, hself, Bool.or_false]
  split
  · rename_i h
    rw [Nat.max_eq_right (Nat.le_of_lt (hlt.1 (of_decide_eq_true h)))]
  · rename_i h
    rw [Nat.max_eq_left (Nat.le_of_not_lt fun hmn => h (decide_eq_true (hlt.2 hmn)))]

end Binary64

end ParetoSelection
