import ParetoSelection.Proofs.Binary64.Overflow
import ParetoSelection.Proofs.Binary64.Separation

/-!
# Tolerant comparison of any two patterns

Whatever the two patterns are, NaN and infinities included, the tolerance between them is
not below zero unless it is no number (`isUnsigned_toleranceAt`). A difference beyond it is
therefore above zero, and then the two are numbers in that order (`grade_lt_of_sub_pos`).
So smaller up to the tolerance is always smaller, and of two patterns not both are smaller
than the other (`not_isLessWithin_and`). That the tolerance confuses numbers which lie close
to one another is of no account here, and neither is what it makes of infinite ones.

For rows it follows that a comparison is the same from either side
(`compare_eq_right_iff_dominates`), and that no row dominates itself (`not_dominates_refl`).
-/

namespace ParetoSelection

namespace Binary64

open Float.Model
open UnpackedFloat (Sign)

/-! ## The tolerance -/

/-- A magnitude is not below zero. -/
theorem isUnsigned_abs (x : Binary64) : IsUnsigned (Scalar.abs x).reading := by
  rw [abs_eq_packed]
  refine isUnsigned_packed ?_
  cases x.reading with
  | notANumber => exact .inl rfl
  | infinity s => exact .inr rfl
  | zero s => exact .inr trivial
  | finite s m e hm => exact .inr rfl

/-- Nor is the larger one of two patterns that are not. -/
theorem isUnsigned_maxNum {x y : Binary64} (hx : IsUnsigned x.reading)
    (hy : IsUnsigned y.reading) : IsUnsigned (Scalar.maxNum x y).reading := by
  unfold Scalar.maxNum
  split
  · exact hy
  · exact hx

/-- Nor is the product of what leans to the positive side, unless it is no number. -/
theorem isUnsigned_mul_of_leans (format : Format) {u v : UnpackedFloat} (hu : Leans .positive u)
    (hv : Leans .positive v) : IsUnsigned (UnpackedFloat.mul format u v) := by
  cases u with
  | notANumber => exact hu.elim
  | infinity s =>
    obtain rfl := hu
    cases v with
    | notANumber => exact .inl rfl
    | zero t => exact .inl rfl
    | infinity t =>
      obtain rfl := hv
      exact .inr rfl
    | finite t m e hm =>
      obtain rfl := hv
      exact .inr rfl
  | zero s =>
    cases v with
    | notANumber => exact .inl rfl
    | infinity t => exact .inl rfl
    | zero t => exact .inr trivial
    | finite t m e hm => exact .inr trivial
  | finite s m e hm =>
    obtain rfl := hu
    cases v with
    | notANumber => exact .inl rfl
    | infinity t =>
      obtain rfl := hv
      exact .inr rfl
    | zero t => exact .inr trivial
    | finite t n f hn =>
      obtain rfl := hv
      exact .inr (leans_roundWithAccuracy _ _ _ _ _)

/-- **Nor is a product.** -/
theorem isUnsigned_mul {x y : Binary64} (hx : IsUnsigned x.reading) (hy : IsUnsigned y.reading) :
    IsUnsigned (x * y).reading := by
  rw [mul_eq_packed]
  refine isUnsigned_packed ?_
  obtain hx | hx := hx
  · rw [hx]
    exact .inl rfl
  obtain hy | hy := hy
  · rw [hy]
    cases x.reading <;> exact .inl rfl
  · exact isUnsigned_mul_of_leans _ hx hy

/-- **The tolerance between any two patterns is not below zero**, unless it is no number. -/
theorem isUnsigned_toleranceAt {eps : Binary64} (heps : IsUnsigned eps.reading) (x y : Binary64) :
    IsUnsigned (toleranceAt eps x y).reading := by
  unfold toleranceAt
  split
  · exact heps
  · exact isUnsigned_mul (isUnsigned_maxNum (isUnsigned_abs x) (isUnsigned_abs y)) heps

/-- The tolerance of ranking is above zero. -/
theorem isUnsigned_defaultTolerance : IsUnsigned (defaultTolerance : Binary64).reading :=
  isUnsigned_reading defaultTolerance_pos.1.isNumber (Int.le_of_lt defaultTolerance_pos.2)

/-! ## Smaller up to the tolerance -/

/-- NaN is put into a pattern that is no number. -/
theorem not_isNumber_packed_notANumber : ¬ (packed .notANumber).IsNumber := by
  decide

/-- **A reading above zero**: it is a number and does not lean to the negative side. -/
def IsAbove (u : UnpackedFloat) : Prop :=
  u ≠ .notANumber ∧ ¬ Leans .negative u

/-- What is put into a pattern above zero is above zero. -/
theorem isAbove_of_grade_pos {u : UnpackedFloat} (hnumber : (packed u).IsNumber)
    (hpos : 0 < (packed u).grade) : IsAbove u := by
  constructor
  · rintro rfl
    exact not_isNumber_packed_notANumber hnumber
  · intro hlean
    have hsign : 0 ≤ -(packed u).grade := (isNumber_packed hlean).2
    omega

/-- Taking an infinity away from a finite number. -/
theorem sub_infinity (format : Format) {u : UnpackedFloat} (hu : u.isFinite = true) (s : Sign) :
    UnpackedFloat.sub format u (.infinity s) = .infinity (-s) := by
  cases u with
  | notANumber => cases hu
  | infinity t => cases hu
  | zero t => rfl
  | finite t m e hm => rfl

/-- Only negative infinity can be taken away from a finite number to get above zero. -/
theorem sign_eq_negative_of_isAbove_sub {format : Format} {u : UnpackedFloat}
    (hu : u.isFinite = true) {s : Sign} (h : IsAbove (UnpackedFloat.sub format u (.infinity s))) :
    s = .negative := by
  rw [sub_infinity format hu] at h
  cases s with
  | negative => rfl
  | positive => exact absurd rfl h.2

/-- An infinite number from which something is left above zero is positive, and what was
taken away is another number. -/
theorem eq_of_isAbove_infinity_sub {format : Format} {s : Sign} {v : UnpackedFloat}
    (h : IsAbove (UnpackedFloat.sub format (.infinity s) v)) :
    s = .positive ∧ v ≠ .infinity .positive := by
  cases v with
  | notANumber => exact absurd rfl h.1
  | infinity t =>
    cases s with
    | negative =>
      cases t with
      | negative => exact absurd rfl h.1
      | positive => exact absurd rfl h.2
    | positive =>
      cases t with
      | negative => exact ⟨rfl, nofun⟩
      | positive => exact absurd rfl h.1
  | zero t =>
    cases s with
    | negative => exact absurd rfl h.2
    | positive => exact ⟨rfl, nofun⟩
  | finite t m e hm =>
    cases s with
    | negative => exact absurd rfl h.2
    | positive => exact ⟨rfl, nofun⟩

/-- The grade of a finite number is between those of the infinities. -/
theorem grade_bounds {x : Binary64} (hx : x.IsFinite) :
    -(infiniteMagnitude : Int) < x.grade ∧ x.grade < infiniteMagnitude := by
  have hlt := isFinite_iff.1 hx
  unfold grade
  cases x.sign <;> simp only [Sign.apply] <;> omega

/-- An infinite number is one of the two. -/
theorem reading_of_not_isFinite {x : Binary64} (hx : x.IsNumber) (h : ¬ x.IsFinite) :
    x.reading = .infinity x.sign ∧ x.grade = x.sign.apply infiniteMagnitude := by
  rw [isFinite_iff] at h
  have hmag : x.magnitude = infiniteMagnitude := Nat.le_antisymm hx (Nat.le_of_not_lt h)
  refine ⟨reading_of_infinite hmag, ?_⟩
  rw [grade, hmag]

/-- **A difference above zero is one of numbers in that order.** Infinite ones are no
exception. -/
theorem grade_lt_of_sub_pos {x y : Binary64} (hnumber : (y - x).IsNumber)
    (hpos : 0 < (y - x).grade) : x.IsNumber ∧ y.IsNumber ∧ x.grade < y.grade := by
  have habove : IsAbove (UnpackedFloat.sub Format.binary64 y.reading x.reading) := by
    rw [sub_eq_packed] at hnumber hpos
    exact isAbove_of_grade_pos hnumber hpos
  have hy : y.IsNumber := by
    by_contra h
    rw [reading_eq_notANumber h] at habove
    exact habove.1 rfl
  have hx : x.IsNumber := by
    by_contra h
    rw [reading_eq_notANumber h] at habove
    exact habove.1 (by cases y.reading <;> rfl)
  refine ⟨hx, hy, ?_⟩
  by_cases hfy : y.IsFinite
  · by_cases hfx : x.IsFinite
    · by_contra hle
      obtain ⟨-, hsign⟩ := grade_sub hfy hfx (s := .negative) (by
        show 0 ≤ -(y.grade - x.grade)
        omega)
      have hsign : 0 ≤ -(y - x).grade := hsign
      omega
    · obtain ⟨hrx, hgx⟩ := reading_of_not_isFinite hx hfx
      rw [hrx] at habove
      rw [hgx, sign_eq_negative_of_isAbove_sub (isFinite_iff_reading.1 hfy) habove]
      exact (grade_bounds hfy).1
  · obtain ⟨hry, hgy⟩ := reading_of_not_isFinite hy hfy
    rw [hry] at habove
    obtain ⟨hsy, hne⟩ := eq_of_isAbove_infinity_sub habove
    rw [hgy, hsy]
    by_cases hfx : x.IsFinite
    · exact (grade_bounds hfx).2
    · obtain ⟨hrx, hgx⟩ := reading_of_not_isFinite hx hfx
      rw [hrx] at hne
      cases hsx : x.sign with
      | positive =>
        rw [hsx] at hne
        exact absurd rfl hne
      | negative =>
        rw [hgx, hsx]
        decide

/-- A tolerance that is a number is not negative. -/
theorem grade_toleranceAt_nonneg {eps x y : Binary64} (heps : IsUnsigned eps.reading)
    (h : (toleranceAt eps x y).IsNumber) : 0 ≤ (toleranceAt eps x y).grade := by
  obtain hnan | hlean := isUnsigned_toleranceAt heps x y
  · rw [← packed_reading h, hnan] at h
    exact absurd h not_isNumber_packed_notANumber
  · exact (isNumber_of_leans hlean).2

/-- **Smaller up to the tolerance is smaller**, for any two patterns. -/
theorem grade_lt_of_isLessWithin_of_isUnsigned {eps x y : Binary64}
    (heps : IsUnsigned eps.reading) (h : isLessWithin eps x y = true) :
    x.IsNumber ∧ y.IsNumber ∧ x.grade < y.grade := by
  have hlt : toleranceAt eps x y < y - x := of_decide_eq_true h
  obtain ⟨htol, hsub⟩ := isNumber_of_lt hlt
  have hnonneg := grade_toleranceAt_nonneg heps htol
  rw [lt_iff htol hsub] at hlt
  exact grade_lt_of_sub_pos hsub (Int.lt_of_le_of_lt hnonneg hlt)

/-- **Of two patterns not both are smaller** than the other. -/
theorem not_isLessWithin_and {eps : Binary64} (heps : IsUnsigned eps.reading) (x y : Binary64) :
    ¬ (isLessWithin eps x y = true ∧ isLessWithin eps y x = true) := by
  rintro ⟨hxy, hyx⟩
  obtain ⟨-, -, hlt⟩ := grade_lt_of_isLessWithin_of_isUnsigned heps hxy
  obtain ⟨-, -, hgt⟩ := grade_lt_of_isLessWithin_of_isUnsigned heps hyx
  exact Int.lt_irrefl _ (Int.lt_trans hlt hgt)

/-! ## Dominance -/

/-- **Which of two rows dominates** is found out by one comparison. -/
theorem compare_eq_right_iff_dominates (a b : List Binary64) :
    Dominance.compare a b = .right ↔ dominates b a = true := by
  rw [dominates, decide_eq_true_eq]
  exact compareWithin_eq_right_iff (not_isLessWithin_and isUnsigned_defaultTolerance) a b

/-- **No row dominates itself**, whatever its values. -/
theorem not_dominates_refl (a : List Binary64) : ¬ dominates a a = true := by
  rw [dominates, decide_eq_true_eq]
  exact compareWithin_self_ne_left (not_isLessWithin_and isUnsigned_defaultTolerance) a

end Binary64

end ParetoSelection
