import ParetoSelection.Geometry
import ParetoSelection.Proofs.Binary64.Operations

/-!
# What overflows stays above everything

Positive infinity and NaN have one thing in common: nothing compares above them
(`not_lt_of_isPeak`). Whatever is added to such a *peak* gives a peak, and so does
multiplying it by what is not below zero (`isPeak_add`, `isPeak_mul`). A root is never
below zero, nor is the sum of two roots (`isUnsigned_sqrt`, `isUnsigned_add`), and what is
not below zero is a peak once it is not finite (`isPeak_of_isUnsigned`). So a bound that
overflows on its way still bounds.
-/

namespace ParetoSelection

namespace Binary64

open Float.Model
open UnpackedFloat (Sign)

/-- **Nothing is above this reading**: it is NaN or positive infinity. -/
def IsPeak (u : UnpackedFloat) : Prop :=
  u = .notANumber ∨ u = .infinity .positive

/-- **A reading that is not below zero**, NaN included. -/
def IsUnsigned (u : UnpackedFloat) : Prop :=
  u = .notANumber ∨ Leans .positive u

/-- Nothing compares above a peak. -/
theorem not_lt_of_isPeak {x : Binary64} (h : IsPeak x.reading) (y : Binary64) : ¬ x < y := by
  rw [lt_iff_compare]
  obtain h | h := h <;> rw [h]
  · exact fun hlt => nomatch hlt
  · cases y.reading with
    | infinity t => cases t <;> decide
    | _ => exact fun hlt => nomatch hlt

/-- **What is not below zero is a peak as soon as it is not finite.** -/
theorem isPeak_of_isUnsigned {x : Binary64} (h : IsUnsigned x.reading) (hx : ¬ x.IsFinite) :
    IsPeak x.reading := by
  rw [isFinite_iff_reading] at hx
  obtain h | h := h
  · exact .inl h
  · cases hr : x.reading <;> rw [hr] at h hx
    · obtain rfl := h
      exact .inr rfl
    · exact .inl rfl
    · exact absurd rfl hx
    · exact absurd rfl hx

/-! ## Putting readings together -/

/-- A peak stays one. -/
theorem isPeak_packed {u : UnpackedFloat} (h : IsPeak u) : IsPeak (packed u).reading := by
  obtain rfl | rfl := h
  · exact .inl rfl
  · exact .inr rfl

/-- A number that is not below zero leans that way. -/
theorem leans_reading {x : Binary64} (hx : x.IsNumber) (h : 0 ≤ x.grade) :
    Leans .positive x.reading := by
  rcases x.reading_cases with ⟨hm, hr⟩ | ⟨hm, -⟩ | ⟨-, hr⟩ | ⟨hm, -, _, hr⟩
  · have hpos : 0 < x.magnitude := by
      rw [hm]
      decide
    rw [hr]
    exact sign_eq_of_apply_nonneg hpos h
  · exact absurd hx (Nat.not_le_of_lt hm)
  · rw [hr]
    trivial
  · rw [hr]
    exact sign_eq_of_apply_nonneg hm h

/-- It is not below zero as a result of arithmetic either. -/
theorem isUnsigned_reading {x : Binary64} (hx : x.IsNumber) (h : 0 ≤ x.grade) :
    IsUnsigned x.reading :=
  .inr (leans_reading hx h)

/-- And what leans that way is such a number. -/
theorem isNumber_of_leans {x : Binary64} (h : Leans .positive x.reading) :
    x.IsNumber ∧ 0 ≤ x.grade := by
  have hx : x.IsNumber := by
    by_contra hnot
    rw [reading_eq_notANumber hnot] at h
    exact h
  obtain ⟨-, hgrade⟩ := isNumber_packed h
  rw [packed_reading hx] at hgrade
  exact ⟨hx, hgrade⟩

/-- What leans keeps to it. -/
theorem leans_packed {u : UnpackedFloat} (h : Leans .positive u) :
    Leans .positive (packed u).reading := by
  obtain ⟨hnumber, hgrade⟩ := isNumber_packed h
  exact leans_reading hnumber hgrade

/-- What is not below zero stays so. -/
theorem isUnsigned_packed {u : UnpackedFloat} (h : IsUnsigned u) :
    IsUnsigned (packed u).reading := by
  obtain rfl | h := h
  · exact .inl rfl
  · exact .inr (leans_packed h)

/-- Its value is not below zero. -/
theorem value_nonneg_of_isUnsigned {x : Binary64} (h : IsUnsigned x.reading) : 0 ≤ x.value := by
  unfold value
  obtain h | h := h
  · rw [h]
    exact le_refl 0
  · cases hr : x.reading <;> rw [hr] at h
    · exact le_refl 0
    · exact le_refl 0
    · exact le_refl 0
    · obtain rfl := h
      show 0 ≤ ((_ : ℕ) : ℤ) * (2 : ℝ) ^ _
      positivity

/-! ## Operations -/

/-- **A root is not below zero.** -/
theorem isUnsigned_sqrt (x : Binary64) : IsUnsigned (Scalar.sqrt x).reading := by
  rw [sqrt_eq_packed]
  refine isUnsigned_packed ?_
  cases x.reading with
  | notANumber => exact .inl rfl
  | infinity s =>
    cases s with
    | negative => exact .inl rfl
    | positive => exact .inr rfl
  | zero s => exact .inr trivial
  | finite s m e hm =>
    cases s with
    | negative => exact .inl rfl
    | positive => exact .inr (leans_roundWithAccuracy _ _ _ _ _)

/-- Numbers of one sign have a sum of that sign. -/
theorem apply_add_nonneg (s : Sign) (m n : ℕ) : 0 ≤ s.apply (s.apply m + s.apply n) := by
  cases s <;> simp only [Sign.apply] <;> omega

/-- A sum leans where both sides lean. -/
theorem leans_add (format : Format) {s : Sign} {u v : UnpackedFloat} (hu : Leans s u)
    (hv : Leans s v) : Leans s (UnpackedFloat.add format u v) := by
  cases u with
  | notANumber => exact hu.elim
  | infinity t =>
    obtain rfl : t = s := hu
    cases v with
    | infinity t' =>
      obtain rfl : t' = t := hv
      cases t' <;> rfl
    | notANumber => exact hv.elim
    | _ => rfl
  | zero t =>
    cases v with
    | zero t' => cases t <;> cases t' <;> trivial
    | _ => exact hv
  | finite t m e hm =>
    obtain rfl : t = s := hu
    cases v with
    | notANumber => exact hv.elim
    | infinity t' => exact hv
    | zero t' => rfl
    | finite t' n f hn =>
      obtain rfl : t' = t := hv
      exact leans_normalize _ _ (apply_add_nonneg t' _ _)

/-- **Nor is the sum of what is not below zero.** -/
theorem isUnsigned_add {x y : Binary64} (hx : IsUnsigned x.reading) (hy : IsUnsigned y.reading) :
    IsUnsigned (x + y).reading := by
  rw [add_eq_packed]
  refine isUnsigned_packed ?_
  obtain hx | hx := hx
  · rw [hx]
    exact .inl rfl
  obtain hy | hy := hy
  · rw [hy]
    cases x.reading <;> exact .inl rfl
  · exact .inr (leans_add _ hx hy)

/-- **A sum with a peak is a peak.** -/
theorem isPeak_add {x y : Binary64} (h : IsPeak x.reading ∨ IsPeak y.reading) :
    IsPeak (x + y).reading := by
  rw [add_eq_packed]
  refine isPeak_packed ?_
  obtain (h | h) | (h | h) := h <;> rw [h]
  · exact .inl rfl
  · cases y.reading with
    | notANumber => exact .inl rfl
    | infinity t =>
      cases t with
      | negative => exact .inl rfl
      | positive => exact .inr rfl
    | _ => exact .inr rfl
  · cases x.reading <;> exact .inl rfl
  · cases x.reading with
    | notANumber => exact .inl rfl
    | infinity t =>
      cases t with
      | negative => exact .inl rfl
      | positive => exact .inr rfl
    | _ => exact .inr rfl

/-- **The product of a peak and what is not below zero is a peak.** -/
theorem isPeak_mul {x y : Binary64} (hx : IsPeak x.reading) (hy : IsUnsigned y.reading) :
    IsPeak (x * y).reading ∧ IsPeak (y * x).reading := by
  rw [mul_eq_packed, mul_eq_packed]
  suffices h : IsPeak (UnpackedFloat.mul Format.binary64 x.reading y.reading)
      ∧ IsPeak (UnpackedFloat.mul Format.binary64 y.reading x.reading) from
    ⟨isPeak_packed h.1, isPeak_packed h.2⟩
  obtain hx | hx := hx <;> rw [hx]
  · cases y.reading <;> exact ⟨.inl rfl, .inl rfl⟩
  · obtain hy | hy := hy
    · rw [hy]
      exact ⟨.inl rfl, .inl rfl⟩
    · cases hr : y.reading <;> rw [hr] at hy
      · obtain rfl := hy
        exact ⟨.inr rfl, .inr rfl⟩
      · exact hy.elim
      · exact ⟨.inl rfl, .inl rfl⟩
      · obtain rfl := hy
        exact ⟨.inr rfl, .inr rfl⟩

/-! ## Sums of squares -/

/-- **The square of a number is not below zero.** -/
theorem leans_mul_self {x : Binary64} (hx : x.IsNumber) : Leans .positive (x * x).reading := by
  have hself (s : Sign) : s * s = .positive := by cases s <;> rfl
  rw [mul_eq_packed]
  refine leans_packed ?_
  rcases x.reading_cases with ⟨-, hr⟩ | ⟨hm, -⟩ | ⟨-, hr⟩ | ⟨-, -, _, hr⟩
  · rw [hr]
    exact hself x.sign
  · exact absurd hx (Nat.not_le_of_lt hm)
  · rw [hr]
    trivial
  · rw [hr]
    show Leans .positive (UnpackedFloat.roundWithAccuracy _ (x.sign * x.sign) _ _ _)
    rw [hself]
    exact leans_roundWithAccuracy _ _ _ _ _

/-- **Nor is a sum** of what is not below zero. -/
theorem leans_sum {xs : List Binary64} (h : ∀ x ∈ xs, Leans .positive x.reading) :
    Leans .positive (Scalar.sum xs).reading := by
  induction xs using List.reverseRecOn with
  | nil => trivial
  | append_singleton xs x ih =>
    have hx := h x (List.mem_append_right _ List.mem_cons_self)
    rw [Scalar.sum_concat, add_eq_packed]
    exact leans_packed (leans_add _ (ih fun y hy => h y (List.mem_append_left _ hy)) hx)

/-- The difference of finite numbers is a number. -/
theorem isNumber_sub {x y : Binary64} (hx : x.IsFinite) (hy : y.IsFinite) :
    (x - y).IsNumber := by
  obtain h | h := Int.le_total 0 (x.grade - y.grade)
  · exact (grade_sub (s := .positive) hx hy h).1
  · exact (grade_sub (s := .negative) hx hy (Int.neg_nonneg_of_nonpos h)).1

/-- **A squared distance is a number**, and not below zero. -/
theorem isNumber_distanceSq {a b : List Binary64} (ha : ∀ x ∈ a, x.IsFinite)
    (hb : ∀ x ∈ b, x.IsFinite) : (distanceSq a b).IsNumber ∧ 0 ≤ (distanceSq a b).grade := by
  refine isNumber_of_leans (leans_sum fun x hx => ?_)
  obtain ⟨k, hk, rfl⟩ := List.getElem_of_mem hx
  rw [List.getElem_zipWith]
  exact leans_mul_self (isNumber_sub (ha _ (List.getElem_mem _)) (hb _ (List.getElem_mem _)))

/-- A number between zero and a finite one is finite. -/
theorem isFinite_of_grade_le {x y : Binary64} (hx : 0 ≤ x.grade) (hxy : x.grade ≤ y.grade)
    (hy : y.IsFinite) : x.IsFinite := by
  have hlt := isFinite_iff.1 hy
  rw [isFinite_iff]
  unfold grade at hx hxy
  cases hsx : x.sign <;> cases hsy : y.sign <;> rw [hsx] at hx hxy <;> rw [hsy] at hxy <;>
    simp only [Sign.apply] at hx hxy <;> omega

end Binary64

end ParetoSelection
