import ParetoSelection.Proofs.Binary64.Arithmetic
import ParetoSelection.Proofs.Dominance

/-!
# Where the tolerance does not matter

Two finite numbers are *separated* if they are the same number or differ by
more than the tolerance of ranking. Then smaller up to the tolerance is
smaller: the tolerance is a number and not negative, so a difference beyond it
is a difference (`toleranceAt_nonneg`), and a difference there is must be beyond
it, or the two would count as equal. Since the tolerance does not depend on
which of the two comes first (`toleranceAt_comm`), this holds in both
directions.

Separated numbers are compared by their grades in every way that ranking
compares them, the total order included if it does not have to tell two zeros
apart (`isGraded_of_separated`). So are rows of such numbers, objective by
objective (`rowsGraded_of_toldApart`).
-/

namespace ParetoSelection

namespace Binary64

/-- **Two values that the tolerance does not confuse**: they are the same
number, or they are not equal up to the tolerance. -/
def Separated (x y : Binary64) : Prop :=
  (x == y) = true ∨ isEqualWithin defaultTolerance x y = false

instance (x y : Binary64) : Decidable (x.Separated y) :=
  inferInstanceAs (Decidable (_ ∨ _))

/-- The tolerance of ranking is a positive finite number. -/
theorem defaultTolerance_pos :
    (defaultTolerance : Binary64).IsFinite ∧ 0 < (defaultTolerance : Binary64).grade := by
  decide +kernel

/-- A magnitude below infinity gives a finite number. -/
theorem ofMagnitude_isFinite {n : Nat} (h : n < infiniteMagnitude) : (ofMagnitude n).IsFinite := by
  have hinf : infiniteMagnitude < 2 ^ 63 := by decide
  rw [isFinite_iff, magnitude_ofMagnitude (by omega)]
  exact h

/-- The larger magnitude of two numbers. -/
theorem maxNum_abs_eq {x y : Binary64} (hx : x.IsNumber) (hy : y.IsNumber) :
    Scalar.maxNum (Scalar.abs x) (Scalar.abs y) = ofMagnitude (max x.magnitude y.magnitude) := by
  rw [abs_eq_ofMagnitude hx, abs_eq_ofMagnitude hy]
  exact maxNum_ofMagnitude hx hy

/-- **The tolerance does not depend on the order** of the two values. -/
theorem toleranceAt_comm {x y : Binary64} (eps : Binary64) (hx : x.IsNumber) (hy : y.IsNumber) :
    toleranceAt eps x y = toleranceAt eps y x := by
  rw [toleranceAt, toleranceAt, Bool.or_comm, maxNum_abs_eq hx hy, maxNum_abs_eq hy hx,
    Nat.max_comm]

/-- **The tolerance is a number and not negative.** -/
theorem toleranceAt_nonneg {x y : Binary64} (hx : x.IsFinite) (hy : y.IsFinite) :
    (toleranceAt defaultTolerance x y).IsNumber
      ∧ 0 ≤ (toleranceAt defaultTolerance x y).grade := by
  obtain ⟨heps, hpos⟩ := defaultTolerance_pos
  rw [toleranceAt, maxNum_abs_eq hx.isNumber hy.isNumber]
  split
  · exact ⟨heps.isNumber, Int.le_of_lt hpos⟩
  · have hlt : max x.magnitude y.magnitude < infiniteMagnitude :=
      Nat.max_lt.2 ⟨isFinite_iff.1 hx, isFinite_iff.1 hy⟩
    have hinf : infiniteMagnitude < 2 ^ 63 := by decide
    refine grade_mul_nonneg (ofMagnitude_isFinite hlt) heps ?_ (Int.le_of_lt hpos)
    rw [grade_ofMagnitude (by omega)]
    exact Int.natCast_nonneg _

/-- A number that is smaller up to the tolerance is smaller. -/
theorem grade_lt_of_isLessWithin {x y : Binary64} (hx : x.IsFinite) (hy : y.IsFinite)
    (h : isLessWithin defaultTolerance x y = true) : x.grade < y.grade := by
  obtain ⟨htol, hnonneg⟩ := toleranceAt_nonneg hx hy
  by_contra hle
  obtain ⟨hsub, hsign⟩ := grade_sub hy hx (s := .negative) (by
    show 0 ≤ -(y.grade - x.grade)
    omega)
  have hdiff := (lt_iff htol hsub).1 (of_decide_eq_true h)
  have hsign : 0 ≤ -(y - x).grade := hsign
  omega

/-- **Smaller is smaller up to the tolerance**, for separated numbers. -/
theorem isLessWithin_iff {x y : Binary64} (hx : x.IsFinite) (hy : y.IsFinite)
    (h : y.Separated x) : isLessWithin defaultTolerance x y = true ↔ x.grade < y.grade := by
  refine ⟨grade_lt_of_isLessWithin hx hy, fun hlt => ?_⟩
  obtain ⟨htol, -⟩ := toleranceAt_nonneg hx hy
  obtain ⟨hsub, hsign⟩ := grade_sub hy hx (s := .positive) (by
    show 0 ≤ y.grade - x.grade
    omega)
  have hsign : 0 ≤ (y - x).grade := hsign
  obtain ⟨habs, hgrade⟩ := grade_abs_of_nonneg hsub hsign
  have hne : ¬ (y == x) = true := by
    rw [beq_iff hy.isNumber hx.isNumber]
    omega
  -- the two do not count as equal, so their difference is beyond the tolerance
  have hbeyond : ¬ Scalar.abs (y - x) ≤ toleranceAt defaultTolerance y x :=
    of_decide_eq_false (h.resolve_left hne)
  rw [toleranceAt_comm _ hy.isNumber hx.isNumber, le_iff habs htol, hgrade] at hbeyond
  refine decide_eq_true ((lt_iff htol hsub).2 ?_)
  omega

/-- **Equal up to the tolerance is equal**, for separated numbers. -/
theorem isEqualWithin_iff {x y : Binary64} (hx : x.IsFinite) (hy : y.IsFinite)
    (h : x.Separated y) : isEqualWithin defaultTolerance x y = true ↔ x.grade = y.grade := by
  rw [← beq_iff hx.isNumber hy.isNumber]
  constructor
  · intro hequal
    refine h.resolve_right fun hnot => ?_
    rw [hequal] at hnot
    exact Bool.false_ne_true hnot.symm
  · intro hbeq
    have hgrade := (beq_iff hx.isNumber hy.isNumber).1 hbeq
    obtain ⟨htol, hnonneg⟩ := toleranceAt_nonneg hx hy
    obtain ⟨hsub, hpos⟩ := grade_sub hx hy (s := .positive) (by
      show 0 ≤ x.grade - y.grade
      omega)
    obtain ⟨-, hneg⟩ := grade_sub hx hy (s := .negative) (by
      show 0 ≤ -(x.grade - y.grade)
      omega)
    have hpos : 0 ≤ (x - y).grade := hpos
    have hneg : 0 ≤ -(x - y).grade := hneg
    obtain ⟨habs, habs'⟩ := grade_abs_of_nonneg hsub hpos
    refine decide_eq_true ((le_iff habs htol).2 ?_)
    omega

/-- **Separated numbers are compared by their grades**, unless they are the two
zeros. -/
theorem isGraded_of_separated {x y : Binary64} (hx : x.IsFinite) (hy : y.IsFinite)
    (hxy : x.Separated y) (hyx : y.Separated x)
    (hzero : x.magnitude = 0 → y.magnitude = 0 → x.sign = y.sign) : IsGraded grade x y where
  isLessWithin_iff := isLessWithin_iff hx hy hyx
  isEqualWithin_iff := isEqualWithin_iff hx hy hxy
  totalCmp_eq := totalCmp_eq_compare_grade hzero
  lt_iff := lt_iff hx.isNumber hy.isNumber

/-- A value of magnitude zero is one of the two zeros. -/
theorem eq_zero_or_negZero {x : Binary64} (h : x.magnitude = 0) :
    x.sign = .positive ∧ x = 0 ∨ x.sign = .negative ∧ x = negZero := by
  cases hs : x.sign with
  | positive =>
    exact .inl ⟨rfl, ext_of_magnitude (hs.trans (if_pos (by decide)).symm) (h.trans (by decide))⟩
  | negative =>
    exact .inr ⟨rfl, ext_of_magnitude (hs.trans (if_neg (by decide)).symm) (h.trans (by decide))⟩

/-- **Two values that neither the tolerance nor the sign of a zero confuses**: they are
separated, and not zero and negative zero. -/
def ToldApart (x y : Binary64) : Prop :=
  x.Separated y ∧ ¬ (x = 0 ∧ y = negZero)

instance (x y : Binary64) : Decidable (x.ToldApart y) :=
  inferInstanceAs (Decidable (_ ∧ _))

/-- Two zeros that are told apart are the same zero. -/
theorem sign_eq_of_toldApart {x y : Binary64} (hxy : x.ToldApart y) (hyx : y.ToldApart x)
    (hx : x.magnitude = 0) (hy : y.magnitude = 0) : x.sign = y.sign := by
  rcases eq_zero_or_negZero hx with ⟨hsx, hx0⟩ | ⟨hsx, hx0⟩ <;>
    rcases eq_zero_or_negZero hy with ⟨hsy, hy0⟩ | ⟨hsy, hy0⟩
  · rw [hsx, hsy]
  · exact absurd ⟨hx0, hy0⟩ hxy.2
  · exact absurd ⟨hy0, hx0⟩ hyx.2
  · rw [hsx, hsy]

/-- **Rows of finite values that are told apart are compared by their grades.** -/
theorem rowsGraded_of_toldApart {a b : List Binary64} (ha : ∀ x ∈ a, x.IsFinite)
    (hb : ∀ y ∈ b, y.IsFinite) (hab : List.Forall₂ ToldApart a b)
    (hba : List.Forall₂ ToldApart b a) : RowsGraded grade a b := by
  induction hab with
  | nil => exact List.Forall₂.nil
  | cons hxy _ ih =>
    obtain ⟨hx, ha⟩ := List.forall_mem_cons.1 ha
    obtain ⟨hy, hb⟩ := List.forall_mem_cons.1 hb
    obtain ⟨hyx, hba⟩ := List.forall₂_cons.1 hba
    exact List.Forall₂.cons
      ⟨isGraded_of_separated hx hy hxy.1 hyx.1 (sign_eq_of_toldApart hxy hyx),
        isGraded_of_separated hy hx hyx.1 hxy.1 (sign_eq_of_toldApart hyx hxy)⟩ (ih ha hb hba)

/-- A finite number equals itself. -/
theorem bne_self {x : Binary64} (hx : x.IsFinite) : (x != x) = false := by
  rw [bne, (beq_iff hx.isNumber hx.isNumber).2 rfl]
  rfl

/-- A finite number is above negative infinity. -/
theorem negInfinity_lt {x : Binary64} (hx : x.IsFinite) : Scalar.negInfinity < x := by
  have hinf : (Scalar.negInfinity : Binary64).IsNumber := by decide +kernel
  have hgrade : (Scalar.negInfinity : Binary64).grade = -(infiniteMagnitude : Int) := by
    decide +kernel
  have hmag := isFinite_iff.1 hx
  rw [lt_iff hinf hx.isNumber, hgrade, grade]
  cases x.sign <;> simp only [Float.Model.UnpackedFloat.Sign.apply] <;> omega

end Binary64

end ParetoSelection
