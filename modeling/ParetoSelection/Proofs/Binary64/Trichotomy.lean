import ParetoSelection.Proofs.Binary64.Order
import ParetoSelection.Proofs.Binary64.Tolerance
import ParetoSelection.Proofs.Binary64.Zeros

/-!
# Equal, less or greater

The test for equality and the test for less are two functions, each with the tolerance
spelled out on its own. Of two numbers exactly one is equal to, less than or greater than
the other – this is so for all finite numbers, zeros, subnormal ones and overflowing
differences included, and for an infinite number next to any other number
(`count_comparisons_eq_one`). The reason is that the three tests look at one difference and
one tolerance: exchanging the operands of a difference gives the opposite number
(`grade_sub_comm`), since rounding does not look at the sign, and the tolerance does not
change at all.

A finite number is equal to itself (`isEqualWithin_self`). What is left is infinity next to
itself, where the difference is no number: it is neither equal nor less nor greater. Next to
other numbers infinity keeps to the trichotomy but not to the order. The tolerance is
relative, so there it is infinite and nothing differs by more than that, except next to a
zero, where the tolerance is absolute (`isLessWithin_infinity`, `isLessWithin_negInfinity`).
A finite row therefore dominates a row of negative infinities only if it has a zero.
-/

namespace ParetoSelection

namespace Binary64

open Float.Model
open UnpackedFloat (Sign)

/-! ## The difference the other way round -/

/-- Rounding does not look at the sign. -/
theorem neg_roundWithAccuracy (format : Format) (s : Sign) (m : Nat) (e : Int)
    (accuracy : UnpackedFloat.Accuracy) :
    (UnpackedFloat.roundWithAccuracy format s m e accuracy).neg
      = UnpackedFloat.roundWithAccuracy format (-s) m e accuracy := by
  unfold UnpackedFloat.roundWithAccuracy
  dsimp only
  split <;> rfl

/-- Nor does moving the exponent before it. -/
theorem neg_round (format : Format) (s : Sign) (m : Nat) (e : Int) :
    (UnpackedFloat.round format s m e).neg = UnpackedFloat.round format (-s) m e :=
  neg_roundWithAccuracy _ _ _ _ _

/-- The opposite exact result is rounded to the opposite. -/
theorem normalize_neg (format : Format) (m e : Int) (zeroSign : Sign) :
    dropReadingSign (UnpackedFloat.normalize format (-m) e zeroSign)
      = dropReadingSign (UnpackedFloat.normalize format m e zeroSign).neg := by
  unfold UnpackedFloat.normalize
  rcases Int.lt_trichotomy m 0 with hlt | rfl | hgt
  · rw [compare_lt_iff_lt.2 hlt, compare_gt_iff_gt.2 (Int.neg_pos_of_neg hlt)]
    dsimp only
    rw [neg_round]
    rfl
  · rfl
  · rw [compare_gt_iff_gt.2 hgt, compare_lt_iff_lt.2 (Int.neg_neg_of_pos hgt)]
    dsimp only
    rw [Int.neg_neg, neg_round]
    rfl

/-- **Exchanging the operands of a difference gives its opposite**, up to the sign of
zero. -/
theorem sub_swap (format : Format) (u v : UnpackedFloat) :
    dropReadingSign (UnpackedFloat.sub format v u)
      = dropReadingSign (UnpackedFloat.sub format u v).neg := by
  cases u with
  | notANumber => cases v <;> rfl
  | infinity s =>
    cases v with
    | infinity t => cases s <;> cases t <;> rfl
    | _ => rfl
  | zero s =>
    cases v with
    | zero t => cases s <;> cases t <;> rfl
    | infinity t => cases t <;> rfl
    | finite t m e hm => cases t <;> rfl
    | notANumber => rfl
  | finite s m e hm =>
    cases v with
    | finite t n f hn =>
      unfold UnpackedFloat.sub
      dsimp only
      rw [Int.min_comm f e, ← normalize_neg, Int.neg_sub]
    | infinity t => cases t <;> rfl
    | _ => rfl

/-- Components with the other sign. -/
theorem grade_ofComponents_neg (s : Sign) (e : BitVec 11) (m : BitVec 52) :
    (ofComponents (-s) e m).grade = -(ofComponents s e m).grade := by
  rw [grade, grade, sign_ofComponents, sign_ofComponents, magnitude_ofComponents,
    magnitude_ofComponents, neg_apply]

/-- **The opposite reading is put into the opposite pattern.** -/
theorem grade_packed_neg {u : UnpackedFloat} (h : (packed u).IsNumber) :
    (packed u.neg).IsNumber ∧ (packed u.neg).grade = -(packed u).grade := by
  have hparts (s : Sign) (e : BitVec 11) (m : BitVec 52) (h : (ofComponents s e m).IsNumber) :
      (ofComponents (-s) e m).IsNumber
        ∧ (ofComponents (-s) e m).grade = -(ofComponents s e m).grade := by
    rw [IsNumber, magnitude_ofComponents] at h ⊢
    exact ⟨h, grade_ofComponents_neg s e m⟩
  cases u with
  | notANumber => exact absurd h not_isNumber_packed_notANumber
  | infinity s => exact hparts s (-1#11) 0 h
  | zero s => exact hparts s 0 0 h
  | finite s m e hm =>
    unfold packed UnpackedFloat.neg UnpackedFloat.pack at *
    dsimp only at *
    split_ifs at * with hover hnormal
    · exact hparts s (-1#11) 0 h
    · exact hparts s _ _ h
    · exact hparts s _ _ h

/-- Two zeros have the same grade. -/
theorem isNumber_and_grade_of_dropZeroSign_eq {x y : Binary64}
    (h : x.dropZeroSign = y.dropZeroSign) (hx : x.IsNumber) :
    y.IsNumber ∧ y.grade = x.grade := by
  by_cases hx0 : x.magnitude = 0 <;> by_cases hy0 : y.magnitude = 0
  · rw [grade_eq_zero hx0, grade_eq_zero hy0, IsNumber, hy0]
    exact ⟨Nat.zero_le _, rfl⟩
  · rw [dropZeroSign_eq_zero hx0, dropZeroSign_eq_self hy0] at h
    rw [← h] at hy0
    exact absurd rfl hy0
  · rw [dropZeroSign_eq_self hx0, dropZeroSign_eq_zero hy0] at h
    rw [h] at hx0
    exact absurd rfl hx0
  · rw [dropZeroSign_eq_self hx0, dropZeroSign_eq_self hy0] at h
    rw [← h]
    exact ⟨hx, rfl⟩

/-- **The difference the other way round is the opposite number**, if it is a number. -/
theorem grade_sub_comm {x y : Binary64} (h : (x - y).IsNumber) :
    (y - x).IsNumber ∧ (y - x).grade = -(x - y).grade := by
  rw [sub_eq_packed] at h
  obtain ⟨hneg, hgrade⟩ := grade_packed_neg h
  rw [sub_eq_packed x, ← hgrade, sub_eq_packed y]
  exact isNumber_and_grade_of_dropZeroSign_eq
    (dropZeroSign_packed (sub_swap Format.binary64 x.reading y.reading)).symm hneg

/-! ## Infinite numbers -/

/-- A number that is not finite is one of the infinities. -/
theorem eq_infinity_or_negInfinity {x : Binary64} (hx : x.IsNumber) (h : ¬ x.IsFinite) :
    x = Scalar.infinity ∨ x = Scalar.negInfinity := by
  have hmag : x.magnitude = infiniteMagnitude :=
    Nat.le_antisymm hx (Nat.le_of_not_lt fun hlt => h (isFinite_iff.2 hlt))
  cases hs : x.sign with
  | positive =>
    exact .inl (ext_of_magnitude (hs.trans (if_pos (by decide)).symm) (hmag.trans (by decide)))
  | negative =>
    exact .inr (ext_of_magnitude (hs.trans (if_neg (by decide)).symm) (hmag.trans (by decide)))

/-- Whatever number is taken away from infinity, infinity is left. -/
theorem infinity_sub {x : Binary64} (hx : x.IsNumber) (h : x ≠ Scalar.infinity) :
    Scalar.infinity - x = Scalar.infinity := by
  by_cases hfin : x.IsFinite
  · obtain ⟨-, hr⟩ | ⟨-, _, hr⟩ := hfin.reading_cases <;> rw [sub_eq_packed, hr] <;> rfl
  · rw [(eq_infinity_or_negInfinity hx hfin).resolve_left h]
    decide +kernel

/-- Taking negative infinity away leaves infinity. -/
theorem sub_negInfinity {x : Binary64} (hx : x.IsNumber) (h : x ≠ Scalar.negInfinity) :
    x - Scalar.negInfinity = Scalar.infinity := by
  by_cases hfin : x.IsFinite
  · rw [sub_eq_packed]
    exact congrArg packed (sub_infinity _ (isFinite_iff_reading.1 hfin) .negative)
  · rw [(eq_infinity_or_negInfinity hx hfin).resolve_right h]
    decide +kernel

/-- **The difference of two numbers is a number** unless they are the same infinity. -/
theorem isNumber_sub_of_ne {x y : Binary64} (hx : x.IsNumber) (hy : y.IsNumber)
    (h : x.IsFinite ∨ x ≠ y) : (x - y).IsNumber := by
  have hinfinity : (Scalar.infinity : Binary64).IsNumber := by decide
  by_cases hfx : x.IsFinite
  · by_cases hfy : y.IsFinite
    · exact isNumber_sub hfx hfy
    · obtain rfl | rfl := eq_infinity_or_negInfinity hy hfy
      · have hback := infinity_sub hx (by rintro rfl; exact hfy hfx)
        exact (grade_sub_comm (by rwa [hback])).1
      · rwa [sub_negInfinity hx (by rintro rfl; exact hfy hfx)]
  · have hne := h.resolve_left hfx
    obtain rfl | rfl := eq_infinity_or_negInfinity hx hfx
    · rwa [infinity_sub hy hne.symm]
    · have hback := sub_negInfinity hy hne.symm
      exact (grade_sub_comm (by rwa [hback])).1

/-- A finite number is below infinity. -/
theorem lt_infinity {x : Binary64} (hx : x.IsFinite) : x < Scalar.infinity := by
  have hinfinity : (Scalar.infinity : Binary64).IsNumber := by decide
  have hgrade : (Scalar.infinity : Binary64).grade = infiniteMagnitude := by decide
  rw [lt_iff hx.isNumber hinfinity, hgrade]
  exact (grade_bounds hx).2

/-- Infinity times a positive finite number. -/
theorem infinity_mul {eps : Binary64} (heps : eps.IsFinite) (hpos : 0 < eps.grade) :
    Scalar.infinity * eps = Scalar.infinity := by
  obtain ⟨hmag, -⟩ | ⟨hmag, _, hr⟩ := heps.reading_cases
  · rw [grade_eq_zero hmag] at hpos
    exact absurd hpos (Int.lt_irrefl 0)
  · rw [mul_eq_packed, hr, sign_eq_of_apply_nonneg (s := .positive) hmag (Int.le_of_lt hpos)]
    rfl

/-! ## The tolerance between numbers -/

/-- Nothing is smaller than itself up to the tolerance. -/
theorem isLessWithin_self {eps : Binary64} (heps : IsUnsigned eps.reading) (x : Binary64) :
    isLessWithin eps x x = false :=
  Bool.eq_false_iff.2 fun h => not_isLessWithin_and heps x x ⟨h, h⟩

section Tolerance

variable {eps : Binary64} (heps : eps.IsFinite) (hpos : 0 < eps.grade) {x y : Binary64}

include heps hpos

/-- Next to an infinite number the tolerance is infinite, unless the other one is zero. -/
theorem toleranceAt_infinite (hx : x.IsNumber) (hzero : (x == 0) = false)
    (hy : y.magnitude = infiniteMagnitude) : toleranceAt eps x y = Scalar.infinity := by
  have hnumber : y.IsNumber := Nat.le_of_eq hy
  have hyzero : (y == 0) = false := by
    rw [Bool.eq_false_iff, ne_eq, beq_iff hnumber (by decide), grade, hy]
    cases y.sign <;> decide
  rw [toleranceAt, hzero, hyzero, maxNum_abs_eq hx hnumber, hy, Nat.max_eq_right hx]
  exact infinity_mul heps hpos

/-- **The tolerance between two numbers is a number** and not negative. -/
theorem toleranceAt_isNumber (hx : x.IsNumber) (hy : y.IsNumber) :
    (toleranceAt eps x y).IsNumber ∧ 0 ≤ (toleranceAt eps x y).grade := by
  have hunsigned := isUnsigned_reading heps.isNumber (Int.le_of_lt hpos)
  have hnumber : (toleranceAt eps x y).IsNumber := by
    rw [toleranceAt, maxNum_abs_eq hx hy]
    split
    · exact heps.isNumber
    · have hinf : infiniteMagnitude < 2 ^ 63 := by decide
      rcases Nat.lt_or_eq_of_le (Nat.max_le.2 ⟨hx, hy⟩) with hlt | heq
      · refine (grade_mul_nonneg (ofMagnitude_isFinite hlt) heps ?_ (Int.le_of_lt hpos)).1
        rw [grade_ofMagnitude (by omega)]
        exact Int.natCast_nonneg _
      · rw [heq]
        show (Scalar.infinity * eps).IsNumber
        rw [infinity_mul heps hpos]
        decide
  exact ⟨hnumber, grade_toleranceAt_nonneg hunsigned hnumber⟩

/-- Only next to a zero is it below infinity. -/
theorem toleranceAt_lt_infinity (hx : x.IsNumber) (hy : y.magnitude = infiniteMagnitude) :
    decide (toleranceAt eps x y < Scalar.infinity) = (x == 0) := by
  cases hzero : x == 0 with
  | false =>
    rw [toleranceAt_infinite heps hpos hx hzero hy]
    exact decide_eq_false (not_lt_self _)
  | true =>
    rw [toleranceAt, hzero, Bool.true_or, if_pos rfl]
    exact decide_eq_true (lt_infinity heps)

/-- **Nothing but zero is below infinity** up to the tolerance. -/
theorem isLessWithin_infinity (hx : x.IsFinite) :
    isLessWithin eps x Scalar.infinity = (x == 0) := by
  rw [isLessWithin, infinity_sub hx.isNumber (by rintro rfl; exact absurd hx (by decide))]
  exact toleranceAt_lt_infinity heps hpos hx.isNumber (by decide)

/-- **Nothing but zero is above negative infinity** up to the tolerance. -/
theorem isLessWithin_negInfinity (hx : x.IsFinite) :
    isLessWithin eps Scalar.negInfinity x = (x == 0) := by
  rw [isLessWithin, toleranceAt_comm _ (by decide) hx.isNumber,
    sub_negInfinity hx.isNumber (by rintro rfl; exact absurd hx (by decide))]
  exact toleranceAt_lt_infinity heps hpos hx.isNumber (by decide)

/-- **Exactly one of equal, less and greater**, as long as the difference is a number. -/
theorem count_comparisons_eq_one (hx : x.IsNumber) (hy : y.IsNumber)
    (h : x.IsFinite ∨ x ≠ y) :
    [isEqualWithin eps x y, isLessWithin eps x y, isLessWithin eps y x].count true = 1 := by
  have hsub := isNumber_sub_of_ne hx hy h
  obtain ⟨hback, hgrade⟩ := grade_sub_comm hsub
  obtain ⟨htol, hnonneg⟩ := toleranceAt_isNumber heps hpos hx hy
  obtain ⟨habs, habsgrade⟩ := grade_abs hsub
  have hequal : isEqualWithin eps x y
      = decide (((x - y).grade.natAbs : Int) ≤ (toleranceAt eps x y).grade) := by
    rw [isEqualWithin, decide_eq_decide, le_iff habs htol, habsgrade]
  have hless : isLessWithin eps x y
      = decide ((toleranceAt eps x y).grade < -(x - y).grade) := by
    rw [isLessWithin, decide_eq_decide, lt_iff htol hback, hgrade]
  have hgreater : isLessWithin eps y x
      = decide ((toleranceAt eps x y).grade < (x - y).grade) := by
    rw [isLessWithin, decide_eq_decide, toleranceAt_comm _ hy hx, lt_iff htol hsub]
  rw [hequal, hless, hgreater]
  generalize (x - y).grade = d at *
  generalize (toleranceAt eps x y).grade = t at *
  have hcases : ((d.natAbs : Int) ≤ t ∧ ¬ t < -d ∧ ¬ t < d)
      ∨ (¬ (d.natAbs : Int) ≤ t ∧ t < -d ∧ ¬ t < d)
      ∨ (¬ (d.natAbs : Int) ≤ t ∧ ¬ t < -d ∧ t < d) := by
    omega
  rcases hcases with ⟨he, hl, hg⟩ | ⟨he, hl, hg⟩ | ⟨he, hl, hg⟩
  · rw [decide_eq_true he, decide_eq_false hl, decide_eq_false hg]
    rfl
  · rw [decide_eq_false he, decide_eq_true hl, decide_eq_false hg]
    rfl
  · rw [decide_eq_false he, decide_eq_false hl, decide_eq_true hg]
    rfl

/-- **A finite number is equal to itself** up to the tolerance: it is not less. -/
theorem isEqualWithin_self (hx : x.IsFinite) : isEqualWithin eps x x = true := by
  have hcount := count_comparisons_eq_one heps hpos hx.isNumber hx.isNumber (.inl hx)
  rw [isLessWithin_self (isUnsigned_reading heps.isNumber (Int.le_of_lt hpos))] at hcount
  cases hequal : isEqualWithin eps x x with
  | false =>
    rw [hequal] at hcount
    exact absurd hcount (by decide)
  | true => rfl

end Tolerance

/-- An infinite number is not equal to itself up to the tolerance: the difference is no
number. -/
theorem isEqualWithin_self_of_infinite (eps : Binary64) {x : Binary64} (hx : x.IsNumber)
    (h : ¬ x.IsFinite) : isEqualWithin eps x x = false := by
  have hnan : (Scalar.abs (x - x)).reading = .notANumber := by
    obtain rfl | rfl := eq_infinity_or_negInfinity hx h <;>
      exact reading_eq_notANumber (by decide +kernel)
  refine decide_eq_false ?_
  rw [le_iff_compare, hnan]
  exact Bool.false_ne_true

/-! ## Comparing all numbers -/

/-- **How tolerant comparison orders the numbers**, infinite ones included. -/
structure OrdersNumbers (eps : Binary64) : Prop where
  /-- Two numbers are exactly one of equal, less or greater, but the same infinity twice is
  none of them. -/
  count : ∀ x y : Binary64, x.isNaN = false → y.isNaN = false →
    [isEqualWithin eps x y, isLessWithin eps x y, isLessWithin eps y x].count true
      = if x.IsFinite ∨ x ≠ y then 1 else 0
  /-- The finite numbers are those equal to themselves. -/
  equal_self : ∀ x : Binary64, x.isNaN = false → isEqualWithin eps x x = decide x.IsFinite
  /-- Less up to the tolerance is less, for any two patterns. -/
  lt_of_less : ∀ x y : Binary64, isLessWithin eps x y = true → x < y
  /-- Of the finite numbers only the zeros are above negative infinity up to the tolerance,
  and only they are below infinity. -/
  infinite : ∀ x : Binary64, x.IsFinite →
    isLessWithin eps Scalar.negInfinity x = (x == 0)
      ∧ isLessWithin eps x Scalar.infinity = (x == 0)
  /-- A row of negative infinities is dominated by the finite rows that have a zero. -/
  row : ∀ row : List Binary64, (∀ x ∈ row, x.IsFinite) →
    Dominance.compareWithin eps (List.replicate row.length Scalar.negInfinity) row
      = if row.any (· == 0) then .right else .neither

section Rows

variable {eps : Binary64} {row : List Binary64}

/-- Negative infinity is better nowhere. -/
theorem isBetterSomewhere_negInfinity (heps : IsUnsigned eps.reading)
    (h : ∀ x ∈ row, x.IsFinite) :
    isBetterSomewhere eps (List.replicate row.length Scalar.negInfinity) row = false := by
  induction row with
  | nil => rfl
  | cons x row ih =>
    obtain ⟨hx, hrow⟩ := List.forall_mem_cons.1 h
    rw [List.length_cons, List.replicate_succ, isBetterSomewhere, ih hrow, Bool.or_false]
    refine Bool.eq_false_iff.2 fun hless => ?_
    obtain ⟨-, hnumber, hlt⟩ := grade_lt_of_isLessWithin_of_isUnsigned heps hless
    rw [← lt_iff hx.isNumber hnumber] at hlt
    exact not_lt_self x (lt_of_lt_of_lt hlt (negInfinity_lt hx))

/-- A finite row is better than negative infinity where it is zero. -/
theorem isBetterSomewhere_of_negInfinity (heps : eps.IsFinite) (hpos : 0 < eps.grade)
    (h : ∀ x ∈ row, x.IsFinite) :
    isBetterSomewhere eps row (List.replicate row.length Scalar.negInfinity)
      = row.any (· == 0) := by
  induction row with
  | nil => rfl
  | cons x row ih =>
    obtain ⟨hx, hrow⟩ := List.forall_mem_cons.1 h
    rw [List.length_cons, List.replicate_succ, isBetterSomewhere, ih hrow, List.any_cons,
      isLessWithin_negInfinity heps hpos hx]

/-- **A finite row dominates negative infinities exactly if it has a zero.** -/
theorem compareWithin_negInfinity (heps : eps.IsFinite) (hpos : 0 < eps.grade)
    (h : ∀ x ∈ row, x.IsFinite) :
    Dominance.compareWithin eps (List.replicate row.length Scalar.negInfinity) row
      = if row.any (· == 0) then .right else .neither := by
  have hunsigned := isUnsigned_reading heps.isNumber (Int.le_of_lt hpos)
  rw [compareWithin_eq_verdict, isBetterSomewhere_negInfinity hunsigned h,
    isBetterSomewhere_of_negInfinity heps hpos h]
  · cases row.any (· == 0) <;> rfl
  · exact List.forall₂_iff_zip.2 ⟨List.length_replicate, fun _ =>
      not_isLessWithin_and hunsigned _ _⟩

end Rows

/-- **Every tolerance between zero and one orders the numbers** in this way. -/
theorem ordersNumbers {eps : Binary64} (hzero : 0 < eps) (hone : eps < 1) :
    OrdersNumbers eps := by
  have hnumber : eps.IsNumber := (isNumber_of_lt hone).1
  have hpos : 0 < eps.grade := (lt_iff (by decide) hnumber).1 hzero
  have heps : eps.IsFinite := by
    by_contra hfin
    obtain rfl | rfl := eq_infinity_or_negInfinity hnumber hfin
    · exact absurd hone (by decide +kernel)
    · exact absurd hzero (by decide +kernel)
  have hunsigned := isUnsigned_reading hnumber (Int.le_of_lt hpos)
  refine ⟨fun x y hx hy => ?_, fun x hx => ?_, fun x y hless => ?_, fun x hx => ?_,
    fun row hrow => ?_⟩
  · rw [isNaN_eq_false_iff] at hx hy
    split
    · rename_i h
      exact count_comparisons_eq_one heps hpos hx hy h
    · rename_i h
      obtain ⟨hfin, rfl⟩ : ¬ x.IsFinite ∧ x = y := by
        rwa [not_or, ne_eq, not_not] at h
      rw [isEqualWithin_self_of_infinite eps hx hfin, isLessWithin_self hunsigned]
      rfl
  · rw [isNaN_eq_false_iff] at hx
    by_cases hfin : x.IsFinite
    · rw [decide_eq_true hfin, isEqualWithin_self heps hpos hfin]
    · rw [decide_eq_false hfin, isEqualWithin_self_of_infinite eps hx hfin]
  · obtain ⟨hx, hy, hlt⟩ := grade_lt_of_isLessWithin_of_isUnsigned hunsigned hless
    exact (lt_iff hx hy).2 hlt
  · exact ⟨isLessWithin_negInfinity heps hpos hx, isLessWithin_infinity heps hpos hx⟩
  · exact compareWithin_negInfinity heps hpos hrow

/-- So does the tolerance of ranking. -/
theorem ordersNumbers_defaultTolerance :
    (0 < (defaultTolerance : Binary64) ∧ (defaultTolerance : Binary64) < 1)
      ∧ OrdersNumbers defaultTolerance := by
  have hzero : 0 < (defaultTolerance : Binary64) := by decide +kernel
  have hone : (defaultTolerance : Binary64) < 1 := by decide +kernel
  exact ⟨⟨hzero, hone⟩, ordersNumbers hzero hone⟩

/-- **Infinite numbers are the exception**: infinity is neither equal to itself nor less,
negative infinity counts as equal to one, and a row of the former is not dominated by a
row of the latter. -/
theorem infinite_comparisons :
    [isEqualWithin defaultTolerance (Scalar.infinity : Binary64) Scalar.infinity,
        isLessWithin defaultTolerance (Scalar.infinity : Binary64) Scalar.infinity,
        isLessWithin defaultTolerance (Scalar.infinity : Binary64) Scalar.infinity].count true = 0
      ∧ isLessWithin defaultTolerance (Scalar.negInfinity : Binary64) 1 = false
      ∧ isEqualWithin defaultTolerance (Scalar.negInfinity : Binary64) 1 = true
      ∧ Dominance.compare [(1 : Binary64), 1] [Scalar.negInfinity, Scalar.negInfinity]
          = .neither := by
  decide +kernel

end Binary64

end ParetoSelection
