import Mathlib.Algebra.BigOperators.Fin
import Mathlib.Algebra.Order.Ring.Rat
import Mathlib.LinearAlgebra.Matrix.DotProduct
import Mathlib.Tactic.FieldSimp
import ParetoSelection.Geometry

/-!
# The distance from a line

The squared distance from a line is computed as the one from a single point of the line, the
foot of the perpendicular. No other point of the line is nearer, and the reason is a
completed square: along the line, the squared distance from a point is a polynomial of
degree two, and it exceeds its value at the foot by the squared length of the step away
from the foot (`dotProduct_sub_smul_eq_add`). The rest follows from the value at the foot,
`⟨p, p⟩ - ⟨l, p⟩² / ⟨l, l⟩`: multiplying the line by a number multiplies both sides of the
fraction by its square, and a sum of squares is zero only if all of them are.

Nothing in this takes a root or a limit, so it is true in every ordered field, and in
particular of rational numbers. A field does not have all that a scalar has. What stands
for infinite numbers and for roots is left open (`Supplement`), as distances use neither.
-/

namespace ParetoSelection

namespace Exact

/-! ## The square is completed -/

section Square

variable {K : Type} [Field K] {n : ℕ}

/-- **The squared distance along a line**, a polynomial of degree two. -/
theorem dotProduct_sub_smul (l p : Fin n → K) (t : K) :
    (p - t • l) ⬝ᵥ (p - t • l) = p ⬝ᵥ p - 2 * t * (l ⬝ᵥ p) + t ^ 2 * (l ⬝ᵥ l) := by
  rw [sub_dotProduct, dotProduct_sub, dotProduct_sub, smul_dotProduct, smul_dotProduct,
    dotProduct_smul, dotProduct_smul, dotProduct_comm p l, smul_eq_mul, smul_eq_mul, smul_eq_mul]
  ring

/-- **Away from the foot the squared distance grows** by the squared length of the step. -/
theorem dotProduct_sub_smul_eq_add {l : Fin n → K} (hl : l ⬝ᵥ l ≠ 0) (p : Fin n → K) (t : K) :
    (p - t • l) ⬝ᵥ (p - t • l)
      = p ⬝ᵥ p - (l ⬝ᵥ p) ^ 2 / (l ⬝ᵥ l) + (l ⬝ᵥ l) * (t - (l ⬝ᵥ p) / (l ⬝ᵥ l)) ^ 2 := by
  rw [dotProduct_sub_smul]
  field_simp
  ring

/-- A squared length is not negative. -/
theorem dotProduct_self_nonneg [LinearOrder K] [IsStrictOrderedRing K] (v : Fin n → K) :
    0 ≤ v ⬝ᵥ v :=
  Finset.sum_nonneg fun k _ => mul_self_nonneg (v k)

end Square

/-! ## The arithmetic of a field -/

/-- **What an ordered field need not have** of a scalar: infinite numbers and roots. Any
numbers will do where they are not used. -/
class Supplement (K : Type) where
  /-- In place of what is above every finite number. -/
  infinity : K
  /-- In place of what is below every finite number. -/
  negInfinity : K
  /-- In place of the square root. -/
  sqrt : K → K

variable {K : Type} [Field K] [LinearOrder K]

/-- **The elements of an ordered field as scalars**, with its own operations. -/
@[reducible]
def fieldScalar [Supplement K] : Scalar K where
  ofNat n := n
  decidableLT := inferInstance
  decidableLE := inferInstance
  infinity := Supplement.infinity
  negInfinity := Supplement.negInfinity
  emptySum := 0
  abs a := |a|
  sqrt := Supplement.sqrt
  totalCmp := compare

attribute [local instance] fieldScalar

section Distances

variable [Supplement K] {n : ℕ}

/-- A sum from left to right is the sum. -/
theorem sum_ofFn_field (f : Fin n → K) : Scalar.sum (List.ofFn f) = ∑ k, f k := by
  rw [← List.sum_ofFn, List.sum_eq_foldl]
  rfl

/-- **The inner product.** -/
theorem dot_ofFn (a b : Fin n → K) : dot (List.ofFn a) (List.ofFn b) = a ⬝ᵥ b := by
  unfold dot
  rw [zipWith_ofFn, sum_ofFn_field]
  rfl

/-- **The squared distance of two points.** -/
theorem distanceSq_ofFn (a b : Fin n → K) :
    distanceSq (List.ofFn a) (List.ofFn b) = (a - b) ⬝ᵥ (a - b) := by
  unfold distanceSq
  rw [zipWith_ofFn, sum_ofFn_field]
  rfl

/-- **The squared distance from a line**, at the foot of the perpendicular. -/
theorem lineDistanceSq_ofFn (l p : Fin n → K) :
    lineDistanceSq (List.ofFn l) (List.ofFn p)
      = (p - ((l ⬝ᵥ p) / (l ⬝ᵥ l)) • l) ⬝ᵥ (p - ((l ⬝ᵥ p) / (l ⬝ᵥ l)) • l) := by
  rw [lineDistanceSq_eq_distanceSq, footCoefficient, dot_ofFn, dot_ofFn, List.map_ofFn]
  exact distanceSq_ofFn p _

end Distances

/-! ## Lines -/

section Lines

variable [IsStrictOrderedRing K] [Supplement K] {n : ℕ} {l : Fin n → K} (hl : l ≠ 0) (p : Fin n → K)

include hl

/-- **The distance is what the inner product leaves** of the length of the point. -/
theorem lineDistanceSq_ofFn_eq_sub :
    lineDistanceSq (List.ofFn l) (List.ofFn p) = p ⬝ᵥ p - (l ⬝ᵥ p) ^ 2 / (l ⬝ᵥ l) := by
  rw [lineDistanceSq_ofFn, dotProduct_sub_smul_eq_add (mt dotProduct_self_eq_zero.1 hl), sub_self,
    zero_pow two_ne_zero, mul_zero, add_zero]

/-- **No point of the line is nearer** than the foot. -/
theorem lineDistanceSq_ofFn_le (t : K) :
    lineDistanceSq (List.ofFn l) (List.ofFn p) ≤ (p - t • l) ⬝ᵥ (p - t • l) := by
  rw [lineDistanceSq_ofFn_eq_sub hl, dotProduct_sub_smul_eq_add (mt dotProduct_self_eq_zero.1 hl)]
  exact le_add_of_nonneg_right (mul_nonneg (dotProduct_self_nonneg l) (sq_nonneg _))

/-- **Only the points of the line have no distance from it.** -/
theorem lineDistanceSq_ofFn_eq_zero_iff :
    lineDistanceSq (List.ofFn l) (List.ofFn p) = 0 ↔ ∃ t : K, p = t • l := by
  constructor
  · intro hzero
    rw [lineDistanceSq_ofFn, dotProduct_self_eq_zero] at hzero
    exact ⟨_, sub_eq_zero.1 hzero⟩
  · rintro ⟨t, rfl⟩
    refine le_antisymm ?_ ?_
    · have hle := lineDistanceSq_ofFn_le hl (t • l) t
      rwa [sub_self, zero_dotProduct] at hle
    · rw [lineDistanceSq_ofFn]
      exact dotProduct_self_nonneg _

/-- **Any vector along the line gives the same distance.** -/
theorem lineDistanceSq_ofFn_smul {c : K} (hc : c ≠ 0) :
    lineDistanceSq (List.ofFn (c • l)) (List.ofFn p)
      = lineDistanceSq (List.ofFn l) (List.ofFn p) := by
  rw [lineDistanceSq_ofFn_eq_sub (smul_ne_zero hc hl), lineDistanceSq_ofFn_eq_sub hl,
    smul_dotProduct, smul_dotProduct, dotProduct_smul, smul_eq_mul, smul_eq_mul, smul_eq_mul,
    mul_pow, ← mul_assoc, ← sq, mul_div_mul_left _ _ (pow_ne_zero 2 hc)]

end Lines

/-- **The squared distance of a point from the line** through the origin along a vector. -/
structure IsLineDistanceSq {n : ℕ} (l p : Fin n → K) (d : K) : Prop where
  /-- It is the squared distance from the nearest of all multiples of the vector. -/
  isLeast : IsLeast (Set.range fun t : K => ∑ k, (p k - t * l k) ^ 2) d
  /-- It is what the inner product with the vector leaves of the squared length of the point. -/
  eq_sub : d = p ⬝ᵥ p - (l ⬝ᵥ p) ^ 2 / (l ⬝ᵥ l)
  /-- It is zero for the multiples of the vector, and for no other point. -/
  eq_zero_iff : d = 0 ↔ ∃ t : K, p = t • l

/-- **Exact distances from lines are what they are called**, for points of any dimension, and
do not depend on which vector along the line is given. -/
theorem isLineDistanceSq_lineDistanceSq [IsStrictOrderedRing K] [Supplement K] {n : ℕ}
    {l : Fin n → K} (hl : l ≠ 0) (p : Fin n → K) :
    IsLineDistanceSq l p (lineDistanceSq (List.ofFn l) (List.ofFn p))
      ∧ ∀ c : K, c ≠ 0 → lineDistanceSq (List.ofFn (c • l)) (List.ofFn p)
          = lineDistanceSq (List.ofFn l) (List.ofFn p) := by
  have hdistance (t : K) : ∑ k, (p k - t * l k) ^ 2 = (p - t • l) ⬝ᵥ (p - t • l) :=
    Finset.sum_congr rfl fun k _ => sq _
  refine ⟨⟨⟨⟨(l ⬝ᵥ p) / (l ⬝ᵥ l), ?_⟩, ?_⟩, lineDistanceSq_ofFn_eq_sub hl p,
    lineDistanceSq_ofFn_eq_zero_iff hl p⟩, fun c hc => lineDistanceSq_ofFn_smul hl p hc⟩
  · exact (hdistance _).trans (lineDistanceSq_ofFn l p).symm
  · rintro _ ⟨t, rfl⟩
    exact (lineDistanceSq_ofFn_le hl p t).trans_eq (hdistance t).symm

/-- Rational numbers, where zero stands for what they lack. -/
@[reducible]
def rationalSupplement : Supplement ℚ := ⟨0, 0, fun _ => 0⟩

attribute [local instance] rationalSupplement

/-- A rational point at distance three from a line, whichever way the line is given. -/
theorem skewLine_isLineDistanceSq :
    (![1, 2, 2] : Fin 3 → ℚ) ≠ 0
      ∧ lineDistanceSq [(1 : ℚ), 2, 2] [3, 0, 3] = 9
      ∧ IsLineDistanceSq ![1, 2, 2] ![3, 0, 3] (lineDistanceSq [(1 : ℚ), 2, 2] [3, 0, 3])
      ∧ lineDistanceSq [(-1 / 2 : ℚ), -1, -1] [3, 0, 3] = 9 := by
  have hline : (![1, 2, 2] : Fin 3 → ℚ) ≠ 0 := by decide
  have hvalue : lineDistanceSq [(1 : ℚ), 2, 2] [3, 0, 3] = 9 := by decide +kernel
  have hhalf : (List.ofFn ((-1 / 2 : ℚ) • ![1, 2, 2]) : List ℚ) = [-1 / 2, -1, -1] := by
    decide +kernel
  obtain ⟨hdistance, hscaled⟩ := isLineDistanceSq_lineDistanceSq hline ![3, 0, 3]
  refine ⟨hline, hvalue, hdistance, ?_⟩
  rw [← hhalf]
  exact (hscaled (-1 / 2) (by norm_num)).trans hvalue

end Exact

end ParetoSelection
