import ParetoSelection.Proofs.Binary64.Arithmetic
import ParetoSelection.Proofs.Keyed

/-!
# The order of binary64 numbers

Patterns that are numbers are compared by their grades, infinite ones included
(`isKeyed_grade`), all patterns are sorted by their keys (`isTotalBy_orderKey`), and whatever
is below a number is a number. The numbers are exactly
the patterns that do not read as NaN.
-/

namespace ParetoSelection

namespace Binary64

/-- **Numbers are compared by their grades.** -/
theorem isKeyed_grade : IsKeyed grade IsNumber where
  lt_iff := lt_iff
  le_iff := le_iff
  beq_iff := beq_iff

/-- All patterns are sorted by their keys. -/
theorem isTotalBy_orderKey : IsTotalBy fun x : Binary64 => x.orderKey.toNat :=
  totalCmp_eq_compare_toNat

/-- So they are whichever NaN operations result in. -/
theorem isTotalBy_orderKey_withNaN (nan : Binary64) :
    @IsTotalBy Binary64 Nat (withNaN nan) _ fun x => x.orderKey.toNat :=
  isTotalBy_orderKey

/-- A pattern that equals itself is a number. -/
theorem isNumber_of_beq_self {x : Binary64} (h : (x == x) = true) : x.IsNumber := by
  by_contra hx
  rw [beq_eq_compare, reading_eq_notANumber hx] at h
  cases h

/-- **What is not below a number is raised to it**, NaN included. -/
theorem le_maxNum_right (x : Binary64) {y : Binary64} (hy : y.IsNumber) :
    (Scalar.maxNum x y).IsNumber ∧ y.grade ≤ (Scalar.maxNum x y).grade := by
  unfold Scalar.maxNum
  split
  · exact ⟨hy, Int.le_refl _⟩
  · rename_i h
    rw [Bool.or_eq_true, not_or, decide_eq_true_iff, bne, Bool.not_eq_true', Bool.not_eq_false]
      at h
    have hx := isNumber_of_beq_self h.2
    rw [lt_iff hx hy] at h
    exact ⟨hx, Int.not_lt.1 h.1⟩

/-- What is below or equal to something is a number, and so is that. -/
theorem isNumber_of_le {x y : Binary64} (h : x ≤ y) : x.IsNumber ∧ y.IsNumber := by
  rw [le_iff_compare] at h
  constructor
  · by_contra hx
    rw [reading_eq_notANumber hx] at h
    cases h
  · by_contra hy
    rw [reading_eq_notANumber hy] at h
    cases hx : x.reading <;> rw [hx] at h <;> cases h

/-- Less than or equal is transitive. -/
theorem le_of_le_of_le {x y z : Binary64} (hxy : x ≤ y) (hyz : y ≤ z) : x ≤ z := by
  obtain ⟨hx, hy⟩ := isNumber_of_le hxy
  obtain ⟨-, hz⟩ := isNumber_of_le hyz
  rw [le_iff hx hy] at hxy
  rw [le_iff hy hz] at hyz
  exact (le_iff hx hz).2 (Int.le_trans hxy hyz)

/-- The smaller of a number and anything is not above the number. -/
theorem minNum_le_left {x : Binary64} (hx : x.IsNumber) (y : Binary64) :
    Scalar.minNum x y ≤ x := by
  rw [Scalar.minNum, isKeyed_grade.bne_self hx, Bool.or_false]
  split
  · rename_i h
    have hlt := of_decide_eq_true h
    have hy := (isNumber_of_lt hlt).1
    exact (le_iff hy hx).2 (Int.le_of_lt ((lt_iff hy hx).1 hlt))
  · exact (le_iff hx hx).2 (Int.le_refl _)

/-- Nor is the smaller of anything and a number. -/
theorem minNum_le_right (x : Binary64) {y : Binary64} (hy : y.IsNumber) :
    Scalar.minNum x y ≤ y := by
  unfold Scalar.minNum
  split
  · exact (le_iff hy hy).2 (Int.le_refl _)
  · rename_i h
    rw [Bool.or_eq_true, not_or, decide_eq_true_iff, bne, Bool.not_eq_true', Bool.not_eq_false]
      at h
    have hx := isNumber_of_beq_self h.2
    rw [lt_iff hy hx] at h
    exact (le_iff hx hy).2 (Int.not_lt.1 h.1)

/-- **A pattern is a number exactly if it is not NaN.** -/
theorem isNaN_eq_false_iff {x : Binary64} : x.isNaN = false ↔ x.IsNumber := by
  show x.toFloat.toModel.unpack.isNaN = false ↔ _
  rw [unpack_toModel]
  by_cases h : x.IsNumber
  · refine iff_of_true ?_ h
    obtain ⟨-, hr⟩ | ⟨hm, -⟩ | ⟨-, hr⟩ | ⟨-, -, _, hr⟩ := x.reading_cases
    · rw [hr]
      rfl
    · exact absurd h (Nat.not_le_of_lt hm)
    · rw [hr]
      rfl
    · rw [hr]
      rfl
  · refine iff_of_false ?_ h
    rw [reading_eq_notANumber h]
    exact Bool.noConfusion

end Binary64

end ParetoSelection
