import Mathlib.Data.List.Forall2
import Mathlib.Order.Basic
import Mathlib.Data.Int.Order.Basic
import ParetoSelection.Maxima.Kung

/-!
# Dominance among values that are told apart

The tolerance is what keeps dominance from being an order. Where it does not
matter – any two values of an objective are the same number or differ by more
than the tolerance – every comparison of values can be read off an integer, the
*grade* of a value (`IsGraded`). Dominance is then the strict componentwise
order of the grades (`dominates_iff`), which is transitive, and the comparison
by which candidates are sorted is the lexicographic order of the same grades
(`lexDescending_eq`), which never puts a dominated row first
(`not_dominates_of_lexDescending`).
-/

namespace ParetoSelection

open Scalar

variable {α : Type} [Scalar α]

/-! ## The pass over two rows -/

/-- Whether the first row is better somewhere. -/
def isBetterSomewhere (eps : α) : (a b : List α) → Bool
  | x :: a, y :: b => isLessWithin eps y x || isBetterSomewhere eps a b
  | _, _ => false

/-- Asking whether the first value is larger before asking whether it is smaller makes no
difference, if of two values not both are smaller. -/
theorem not_isLessWithin_and_eq {eps x y : α}
    (h : ¬ (isLessWithin eps x y = true ∧ isLessWithin eps y x = true)) :
    (!isLessWithin eps y x && isLessWithin eps x y) = isLessWithin eps x y := by
  cases hless : isLessWithin eps x y with
  | false => rw [Bool.and_false]
  | true =>
    rw [Bool.eq_false_iff.2 fun h' => h ⟨hless, h'⟩]
    rfl

/-- **The pass finds out who is better somewhere**, if of two values not both
are smaller. -/
theorem scan_eq_verdict {eps : α} {a b : List α}
    (h : List.Forall₂
      (fun x y => ¬ (isLessWithin eps x y = true ∧ isLessWithin eps y x = true)) a b)
    {aBetter bBetter : Bool} (hstart : (aBetter && bBetter) = false) :
    Dominance.scan eps aBetter bBetter a b
      = Dominance.verdict (aBetter || isBetterSomewhere eps a b)
          (bBetter || isBetterSomewhere eps b a) := by
  induction h generalizing aBetter bBetter with
  | nil =>
    show _ = Dominance.verdict (aBetter || false) (bBetter || false)
    rw [Bool.or_false, Bool.or_false]
    rfl
  | @cons x y a b hxy _ ih =>
    rw [Dominance.scan, not_isLessWithin_and_eq hxy, isBetterSomewhere, isBetterSomewhere,
      ← Bool.or_assoc, ← Bool.or_assoc]
    split
    · -- the pass ends early, and nothing that follows changes the verdict
      rename_i hboth
      rw [Bool.and_eq_true] at hboth
      rw [hboth.1, hboth.2]
      rfl
    · rename_i hboth
      exact ih (Bool.eq_false_iff.2 hboth)

/-- The comparison of two rows, if of two values not both are smaller. -/
theorem compareWithin_eq_verdict {eps : α} {a b : List α}
    (h : List.Forall₂ (fun x y => ¬ (isLessWithin eps x y = true ∧ isLessWithin eps y x = true))
      a b) :
    Dominance.compareWithin eps a b
      = Dominance.verdict (isBetterSomewhere eps a b) (isBetterSomewhere eps b a) :=
  scan_eq_verdict h rfl

/-- The verdict from the other side. -/
def Dominance.swap : Dominance → Dominance
  | left => right
  | right => left
  | neither => neither

/-- A verdict is swapped by swapping who was better. -/
theorem verdict_comm (aBetter bBetter : Bool) :
    Dominance.verdict bBetter aBetter = (Dominance.verdict aBetter bBetter).swap := by
  cases aBetter <;> cases bBetter <;> rfl

/-- **The pass over two rows is the same from the other side**, rows of different
lengths included. That it asks about the first row first makes no difference, since of
two values not both are smaller. -/
theorem scan_comm {eps : α}
    (h : ∀ x y : α, ¬ (isLessWithin eps x y = true ∧ isLessWithin eps y x = true))
    (aBetter bBetter : Bool) (a b : List α) :
    Dominance.scan eps bBetter aBetter b a = (Dominance.scan eps aBetter bBetter a b).swap := by
  induction a generalizing aBetter bBetter b with
  | nil =>
    cases b with
    | nil => exact verdict_comm aBetter bBetter
    | cons y b => exact verdict_comm aBetter bBetter
  | cons x a ih =>
    cases b with
    | nil => exact verdict_comm aBetter bBetter
    | cons y b =>
      rw [Dominance.scan, Dominance.scan, not_isLessWithin_and_eq (h x y),
        not_isLessWithin_and_eq (h y x), Bool.and_comm (bBetter || isLessWithin eps x y)]
      split
      · rfl
      · exact ih _ _ b

/-- **The comparison of two rows is the same from the other side.** -/
theorem compareWithin_comm {eps : α}
    (h : ∀ x y : α, ¬ (isLessWithin eps x y = true ∧ isLessWithin eps y x = true))
    (a b : List α) :
    Dominance.compareWithin eps b a = (Dominance.compareWithin eps a b).swap :=
  scan_comm h false false a b

/-- The second row dominates the first if it does when it is named first. -/
theorem compareWithin_eq_right_iff {eps : α}
    (h : ∀ x y : α, ¬ (isLessWithin eps x y = true ∧ isLessWithin eps y x = true))
    (a b : List α) :
    Dominance.compareWithin eps a b = .right ↔ Dominance.compareWithin eps b a = .left := by
  rw [compareWithin_comm h a b]
  cases Dominance.compareWithin eps a b <;> decide

/-- A row does not dominate itself: from the other side it would not. -/
theorem compareWithin_self_ne_left {eps : α}
    (h : ∀ x y : α, ¬ (isLessWithin eps x y = true ∧ isLessWithin eps y x = true))
    (a : List α) : Dominance.compareWithin eps a a ≠ .left := by
  intro hleft
  have hswap := compareWithin_comm h a a
  rw [hleft] at hswap
  exact Dominance.noConfusion hswap

/-! ## Grades -/

/-- **Two values are compared by their grades**: up to the tolerance, by the
total order, and as numbers. -/
structure IsGraded (grade : α → Int) (x y : α) : Prop where
  /-- Smaller by more than the tolerance is smaller in grade. -/
  isLessWithin_iff : isLessWithin defaultTolerance x y = true ↔ grade x < grade y
  /-- Equal up to the tolerance is equal in grade. -/
  isEqualWithin_iff : isEqualWithin defaultTolerance x y = true ↔ grade x = grade y
  /-- The total order is the one of the grades. -/
  totalCmp_eq : totalCmp x y = compare (grade x) (grade y)
  /-- The order of numbers is the one of the grades. -/
  lt_iff : x < y ↔ grade x < grade y

/-- **Two rows are compared by grades**, objective by objective and in both
directions. -/
def RowsGraded (grade : α → Int) (a b : List α) : Prop :=
  List.Forall₂ (fun x y => IsGraded grade x y ∧ IsGraded grade y x) a b

/-- **No value of the first row has a larger grade** than the one of the second
row. -/
def IsBelow (grade : α → Int) (a b : List α) : Prop :=
  List.Forall₂ (fun x y => grade x ≤ grade y) a b

variable {grade : α → Int} {a b c : List α}

/-- Being compared by grades goes both ways. -/
theorem RowsGraded.symm (h : RowsGraded grade a b) : RowsGraded grade b a :=
  List.Forall₂.flip (h.imp fun _ _ => And.symm)

omit [Scalar α] in
/-- What is below something below is below. -/
theorem IsBelow.trans (hab : IsBelow grade a b) (hbc : IsBelow grade b c) : IsBelow grade a c := by
  induction hab generalizing c with
  | nil =>
    cases hbc
    exact List.Forall₂.nil
  | cons hxy _ ih =>
    cases hbc with
    | cons hyz hbc => exact List.Forall₂.cons (le_trans hxy hyz) (ih hbc)

/-- A row is better nowhere exactly where it is below. -/
theorem isBetterSomewhere_eq_false_iff (h : RowsGraded grade a b) :
    isBetterSomewhere defaultTolerance a b = false ↔ IsBelow grade a b := by
  induction h with
  | nil => exact iff_of_true rfl List.Forall₂.nil
  | cons hxy _ ih =>
    rw [isBetterSomewhere, Bool.or_eq_false_iff, ih, IsBelow, IsBelow, List.forall₂_cons,
      Bool.eq_false_iff, ne_eq, hxy.2.isLessWithin_iff, Int.not_lt]

/-- Who is better somewhere settles the comparison of two rows. -/
theorem compare_eq_verdict (h : RowsGraded grade a b) :
    Dominance.compare a b = Dominance.verdict (isBetterSomewhere defaultTolerance a b)
      (isBetterSomewhere defaultTolerance b a) := by
  refine compareWithin_eq_verdict (List.Forall₂.imp (fun x y hxy => ?_) h)
  rintro ⟨hlt, hgt⟩
  exact Int.lt_irrefl _ (Int.lt_trans (hxy.1.isLessWithin_iff.1 hlt) (hxy.2.isLessWithin_iff.1 hgt))

/-- A row dominates another if it is better somewhere and worse nowhere. -/
theorem dominates_eq (h : RowsGraded grade a b) :
    dominates a b = (isBetterSomewhere defaultTolerance a b
      && !isBetterSomewhere defaultTolerance b a) := by
  rw [dominates, compare_eq_verdict h]
  cases isBetterSomewhere defaultTolerance a b <;>
    cases isBetterSomewhere defaultTolerance b a <;> rfl

/-- **Dominance is the strict componentwise order of the grades.** -/
theorem dominates_iff (h : RowsGraded grade a b) :
    dominates a b = true ↔ IsBelow grade b a ∧ ¬ IsBelow grade a b := by
  rw [dominates_eq h, ← isBetterSomewhere_eq_false_iff h, ← isBetterSomewhere_eq_false_iff h.symm,
    Bool.and_eq_true, Bool.not_eq_true', Bool.not_eq_false]
  exact and_comm

/-- The comparison is the same from the other side. -/
theorem compare_eq_right_iff (h : RowsGraded grade a b) :
    Dominance.compare a b = .right ↔ dominates b a = true := by
  rw [dominates_eq h.symm, compare_eq_verdict h]
  cases isBetterSomewhere defaultTolerance a b <;>
    cases isBetterSomewhere defaultTolerance b a <;> decide

/-- Dominance is transitive. -/
theorem dominates_trans (hab : RowsGraded grade a b) (hbc : RowsGraded grade b c)
    (hac : RowsGraded grade a c) (hdom : dominates a b = true) (hdom' : dominates b c = true) :
    dominates a c = true := by
  rw [dominates_iff hab] at hdom
  rw [dominates_iff hbc] at hdom'
  rw [dominates_iff hac]
  exact ⟨hdom'.1.trans hdom.1, fun hbelow => hdom.2 (hbelow.trans hdom'.1)⟩

/-- No row dominates itself. -/
theorem not_dominates_self (h : RowsGraded grade a a) : ¬ dominates a a = true := by
  rw [dominates_iff h]
  exact fun hdom => hdom.2 hdom.1

/-! ## The order in which candidates are sorted -/

/-- Rows are sorted by any keys that the total order of their values is the order
of. -/
theorem lexDescending_eq_compare {κ : Type} [Ord κ] {key : α → κ}
    (h : List.Forall₂ (fun x y => totalCmp y x = compare (key y) (key x)) a b) :
    lexDescending a b = compare (b.map key) (a.map key) := by
  induction h with
  | nil => rfl
  | @cons x y a b hxy _ ih =>
    rw [lexDescending, ih, hxy]
    show _ = List.compareLex compare (key y :: b.map key) (key x :: a.map key)
    rw [List.compareLex_cons_cons]
    rfl

/-- **Rows are sorted by their grades.** -/
theorem lexDescending_eq (h : RowsGraded grade a b) :
    lexDescending a b = compare (b.map grade) (a.map grade) :=
  lexDescending_eq_compare (h.imp fun _ _ hxy => hxy.2.totalCmp_eq)

/-- **What precedes is not dominated** by what follows. -/
theorem isBelow_of_lexDescending (h : RowsGraded grade a b)
    (hle : (lexDescending a b).isLE = true) (hbelow : IsBelow grade a b) : IsBelow grade b a := by
  induction h with
  | nil => exact List.Forall₂.nil
  | @cons x y a b hxy _ ih =>
    cases hbelow with
    | cons hlexy hbelow =>
      rw [lexDescending, hxy.2.totalCmp_eq] at hle
      rcases Int.lt_or_eq_of_le hlexy with hlt | heq
      · rw [compare_gt_iff_gt.2 hlt] at hle
        exact absurd hle Bool.false_ne_true
      · rw [compare_eq_iff_eq.2 heq.symm, Ordering.eq_then] at hle
        exact List.Forall₂.cons (Int.le_of_eq heq.symm) (ih hle hbelow)

/-- **No row dominates one that precedes it.** -/
theorem not_dominates_of_lexDescending (h : RowsGraded grade a b)
    (hle : (lexDescending a b).isLE = true) : ¬ dominates b a = true := by
  rw [dominates_iff h.symm]
  exact fun hdom => hdom.2 (isBelow_of_lexDescending h hle hdom.1)

namespace Maxima

/-- The test on all objectives but the first. -/
theorem restComparison_eq (h : RowsGraded grade a b) :
    restComparison a b = if isBetterSomewhere defaultTolerance a b then none
      else some (isBetterSomewhere defaultTolerance b a) := by
  induction h with
  | nil => rfl
  | @cons x y a b hxy _ ih =>
    rw [restComparison, isBetterSomewhere, isBetterSomewhere, ih]
    cases isLessWithin defaultTolerance y x
    · cases isBetterSomewhere defaultTolerance a b <;> rfl
    · rfl

/-- **The short test is the dominance test** for two rows of which the lower one is
not better in the first objective. -/
theorem isDominatedFromAbove_eq_dominates {x y : α} (h : RowsGraded grade (y :: b) (x :: a))
    (hnot : isLessWithin defaultTolerance y x = false) :
    isDominatedFromAbove (x :: a) (y :: b) = dominates (y :: b) (x :: a) := by
  cases h with
  | cons hyx hba =>
    have hrest := restComparison_eq (RowsGraded.symm hba)
    rw [dominates_eq (List.Forall₂.cons hyx hba), isBetterSomewhere, isBetterSomewhere, hnot]
    unfold isDominatedFromAbove
    rw [List.tail_cons, List.tail_cons, hrest]
    cases isBetterSomewhere defaultTolerance a b
    · rw [Bool.false_or, Bool.not_false, Bool.and_true]
      exact Bool.or_comm _ _
    · rw [Bool.false_or, Bool.not_true, Bool.and_false]
      rfl

/-- It is for a row and one that precedes it. -/
theorem isDominatedFromAbove_eq {x y : α} (h : RowsGraded grade (y :: b) (x :: a))
    (hle : (lexDescending (y :: b) (x :: a)).isLE = true) :
    isDominatedFromAbove (x :: a) (y :: b) = dominates (y :: b) (x :: a) := by
  refine isDominatedFromAbove_eq_dominates h ?_
  obtain ⟨hyx, -⟩ := List.forall₂_cons.1 h
  rw [lexDescending, hyx.2.totalCmp_eq] at hle
  rw [Bool.eq_false_iff, ne_eq, hyx.1.isLessWithin_iff, Int.not_lt]
  by_contra hlt
  rw [compare_gt_iff_gt.2 (Int.lt_of_not_ge hlt)] at hle
  exact Bool.false_ne_true hle

end Maxima

end ParetoSelection
