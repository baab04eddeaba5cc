import ParetoSelection.Proofs.Binary64.Arithmetic
import ParetoSelection.Proofs.Binary64.Separation

/-!
# What depends on the sign of zero

There are two zeros, and as numbers they are the same: no comparison tells them
apart, and where arithmetic returns one of them it returns the other one, or the same,
if an operand is replaced by the other zero. So replacing them changes nothing about a
comparison with tolerance (`isLessWithin_dropZeroSign`, `isEqualWithin_dropZeroSign`).
This holds of all patterns, infinite or NaN.

The total order does tell them apart. It puts numbers in order as the numbers are,
and the two zeros next to each other, the negative one first
(`grade_le_of_orderKey_le`).
-/

namespace ParetoSelection

namespace Binary64

open Float.Model
open UnpackedFloat (Sign)

/-- **The pattern with positive zero in place of negative zero.** -/
def dropZeroSign (x : Binary64) : Binary64 :=
  if x.magnitude = 0 then 0 else x

/-- The reading with positive zero in place of negative zero. -/
def dropReadingSign : UnpackedFloat → UnpackedFloat
  | .zero _ => .zero .positive
  | u => u

/-! ## Readings -/

/-- Readings that differ in the sign of zero at most are the same, or two zeros. -/
theorem eq_or_zero_of_dropReadingSign_eq {u v : UnpackedFloat}
    (h : dropReadingSign u = dropReadingSign v) :
    u = v ∨ ∃ s t, u = .zero s ∧ v = .zero t := by
  cases u with
  | zero s =>
    cases v with
    | zero t => exact .inr ⟨s, t, rfl, rfl⟩
    | _ => cases h
  | _ =>
    cases v with
    | zero t => cases h
    | _ => exact .inl h

/-- A zero is replaced by positive zero. -/
theorem dropZeroSign_eq_zero {x : Binary64} (h : x.magnitude = 0) : x.dropZeroSign = 0 :=
  if_pos h

/-- Any other pattern stays as it is. -/
theorem dropZeroSign_eq_self {x : Binary64} (h : x.magnitude ≠ 0) : x.dropZeroSign = x :=
  if_neg h

/-- A pattern without the sign of zero is read without it. -/
theorem reading_dropZeroSign (x : Binary64) :
    x.dropZeroSign.reading = dropReadingSign x.reading := by
  by_cases hzero : x.magnitude = 0
  · rw [dropZeroSign_eq_zero hzero, reading_of_zero hzero]
    exact reading_of_zero rfl
  · rw [dropZeroSign_eq_self hzero]
    rcases x.reading_cases with ⟨-, hr⟩ | ⟨-, hr⟩ | ⟨hmag, -⟩ | ⟨-, -, _, hr⟩
    · rw [hr]
      rfl
    · rw [hr]
      rfl
    · exact absurd hmag hzero
    · rw [hr]
      rfl

/-- Comparing readings does not see the sign of zero. -/
theorem compare_dropReadingSign (u v : UnpackedFloat) :
    (dropReadingSign u).compare (dropReadingSign v) = u.compare v := by
  cases u with
  | notANumber => rfl
  | zero s =>
    cases v with
    | infinity t => cases t <;> rfl
    | finite t m e hm => cases t <;> rfl
    | _ => rfl
  | infinity s =>
    cases v with
    | zero t => cases s <;> rfl
    | _ => rfl
  | finite s m e hm =>
    cases v with
    | zero t => cases s <;> rfl
    | _ => rfl

/-- Subtraction sees the sign of zero only in a result that is zero. -/
theorem sub_dropReadingSign (format : Format) (u v : UnpackedFloat) :
    dropReadingSign (UnpackedFloat.sub format (dropReadingSign u) (dropReadingSign v))
      = dropReadingSign (UnpackedFloat.sub format u v) := by
  cases u with
  | zero s =>
    cases v with
    | zero t => cases s <;> cases t <;> rfl
    | _ => rfl
  | _ =>
    cases v with
    | _ => rfl

/-- The absolute value is the same for both zeros. -/
theorem abs_dropReadingSign (u : UnpackedFloat) : (dropReadingSign u).abs = u.abs := by
  cases u <;> rfl

/-- Putting readings together that differ in the sign of zero gives patterns that
do. -/
theorem dropZeroSign_packed {u v : UnpackedFloat} (h : dropReadingSign u = dropReadingSign v) :
    (packed u).dropZeroSign = (packed v).dropZeroSign := by
  obtain rfl | ⟨s, t, rfl, rfl⟩ := eq_or_zero_of_dropReadingSign_eq h
  · rfl
  · cases s <;> cases t <;> decide

/-! ## Comparisons and arithmetic -/

/-- Replacing one zero by another once is enough. -/
@[simp]
theorem dropZeroSign_dropZeroSign (x : Binary64) :
    x.dropZeroSign.dropZeroSign = x.dropZeroSign := by
  by_cases hzero : x.magnitude = 0
  · rw [dropZeroSign_eq_zero hzero]
    rfl
  · rw [dropZeroSign_eq_self hzero, dropZeroSign_eq_self hzero]

/-- Less than does not see the sign of zero. -/
theorem lt_dropZeroSign_iff {x y : Binary64} : x.dropZeroSign < y.dropZeroSign ↔ x < y := by
  rw [lt_iff_compare, lt_iff_compare, reading_dropZeroSign, reading_dropZeroSign,
    compare_dropReadingSign]

/-- Nor does equality. -/
theorem beq_dropZeroSign (x y : Binary64) : (x.dropZeroSign == y.dropZeroSign) = (x == y) := by
  rw [beq_eq_compare, beq_eq_compare, reading_dropZeroSign, reading_dropZeroSign,
    compare_dropReadingSign]

/-- A difference sees it only if the difference is zero. -/
theorem sub_dropZeroSign (x y : Binary64) :
    (x.dropZeroSign - y.dropZeroSign).dropZeroSign = (x - y).dropZeroSign := by
  rw [sub_eq_packed, sub_eq_packed, reading_dropZeroSign, reading_dropZeroSign]
  exact dropZeroSign_packed (sub_dropReadingSign _ _ _)

/-- An absolute value does not see it. -/
theorem abs_dropZeroSign (x : Binary64) : Scalar.abs x.dropZeroSign = Scalar.abs x := by
  rw [abs_eq_packed, abs_eq_packed, reading_dropZeroSign, abs_dropReadingSign]

/-- The larger of two numbers sees it only if the larger one is zero. -/
theorem maxNum_dropZeroSign (x y : Binary64) :
    (Scalar.maxNum x y).dropZeroSign = Scalar.maxNum x.dropZeroSign y.dropZeroSign := by
  unfold Scalar.maxNum
  rw [bne, bne, beq_dropZeroSign, apply_ite dropZeroSign]
  refine if_congr ?_ rfl rfl
  rw [Bool.or_eq_true, Bool.or_eq_true, decide_eq_true_iff, decide_eq_true_iff,
    lt_dropZeroSign_iff]

/-! ## Comparisons with tolerance -/

/-- The tolerance does not see the sign of zero. -/
theorem toleranceAt_dropZeroSign (eps x y : Binary64) :
    toleranceAt eps x.dropZeroSign y.dropZeroSign = toleranceAt eps x y := by
  have hzero (x : Binary64) : (x.dropZeroSign == 0) = (x == 0) := beq_dropZeroSign x 0
  unfold toleranceAt
  rw [hzero, hzero, abs_dropZeroSign, abs_dropZeroSign]

/-- **Smaller up to the tolerance does not see the sign of zero.** -/
theorem isLessWithin_dropZeroSign (eps x y : Binary64) :
    isLessWithin eps x.dropZeroSign y.dropZeroSign = isLessWithin eps x y := by
  unfold isLessWithin
  rw [toleranceAt_dropZeroSign, decide_eq_decide, ← lt_dropZeroSign_iff, sub_dropZeroSign,
    lt_dropZeroSign_iff]

/-- **Equal up to the tolerance does not see the sign of zero.** -/
theorem isEqualWithin_dropZeroSign (eps x y : Binary64) :
    isEqualWithin eps x.dropZeroSign y.dropZeroSign = isEqualWithin eps x y := by
  unfold isEqualWithin
  rw [toleranceAt_dropZeroSign, ← abs_dropZeroSign (x.dropZeroSign - y.dropZeroSign),
    sub_dropZeroSign, abs_dropZeroSign]

/-- A finite number stays one. -/
theorem IsFinite.dropZeroSign {x : Binary64} (h : x.IsFinite) : x.dropZeroSign.IsFinite := by
  by_cases hzero : x.magnitude = 0
  · rw [dropZeroSign_eq_zero hzero]
    decide
  · rwa [dropZeroSign_eq_self hzero]

/-- Values that the tolerance does not confuse still are not confused. -/
theorem separated_dropZeroSign {x y : Binary64} :
    x.dropZeroSign.Separated y.dropZeroSign ↔ x.Separated y := by
  unfold Separated
  rw [beq_dropZeroSign, isEqualWithin_dropZeroSign]

/-- Negative zero is gone. -/
theorem dropZeroSign_ne_negZero (x : Binary64) : x.dropZeroSign ≠ negZero := by
  by_cases hzero : x.magnitude = 0
  · rw [dropZeroSign_eq_zero hzero]
    decide
  · rw [dropZeroSign_eq_self hzero]
    rintro rfl
    exact hzero rfl

/-! ## The total order -/

/-- Patterns with the same place in the total order are the same. -/
theorem orderKey_injective {x y : Binary64} (h : x.orderKey = y.orderKey) : x = y := by
  have hkey := congrArg UInt64.toNat h
  rw [toNat_orderKey, toNat_orderKey] at hkey
  have hx := x.magnitude_lt
  have hy := y.magnitude_lt
  cases hsx : x.sign <;> cases hsy : y.sign <;> rw [hsx, hsy] at hkey <;> dsimp only at hkey
  · exact ext_of_magnitude (hsx.trans hsy.symm) (by omega)
  · omega
  · omega
  · exact ext_of_magnitude (hsx.trans hsy.symm) (by omega)

/-- **The total order puts numbers in order**, and differs from the order of the
numbers in nothing but the two zeros. -/
theorem grade_le_of_orderKey_le {x y : Binary64} (h : x.orderKey ≤ y.orderKey) :
    x.grade ≤ y.grade := by
  have hkey := UInt64.le_iff_toNat_le.1 h
  rw [toNat_orderKey, toNat_orderKey] at hkey
  have hx := x.magnitude_lt
  have hy := y.magnitude_lt
  unfold grade
  cases hsx : x.sign <;> cases hsy : y.sign <;> rw [hsx, hsy] at hkey <;>
    simp only [Sign.apply] at hkey ⊢ <;> omega

end Binary64

end ParetoSelection
