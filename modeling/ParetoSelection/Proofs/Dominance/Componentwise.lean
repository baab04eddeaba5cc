import Mathlib.Data.List.Zip
import ParetoSelection.Proofs.Binary64.Tolerance

/-!
# What a comparison of two rows says

A comparison goes over two rows once. It remembers which of them has been better so far, asks
at every place about the first row before it asks about the second, and ends early when both
have been better. What it finds out mentions none of this: the first row dominates if its
value exceeds that of the second by more than the tolerance somewhere, and the value of the
second exceeds that of the first nowhere (`Dominance.IsComponentwise`).

One fact about values makes the two the same. Of two values not both exceed each other, so
the question that is asked first hides no answer to the other one. It follows that neither
the order of the two rows matters nor the order of their objectives. The fact holds of any
two binary64 patterns, NaN and infinities included, and any tolerance that is not below zero
(`Binary64.not_isLessWithin_and`).
-/

namespace ParetoSelection

variable {α : Type} [Scalar α]

/-- **Better somewhere**: at some place the value of the first row exceeds that of the second by
more than the tolerance between the two. -/
def ExceedsSomewhere (eps : α) (a b : List α) : Prop :=
  ∃ x y, (x, y) ∈ List.zip a b ∧ toleranceAt eps y x < x - y

/-- **A comparison that means what it says**, place by place. -/
structure Dominance.IsComponentwise (eps : α) (a b : List α) : Prop where
  /-- The first row dominates if it is better somewhere and the second nowhere. -/
  left_iff : compareWithin eps a b = .left ↔ ExceedsSomewhere eps a b ∧ ¬ ExceedsSomewhere eps b a
  /-- The second row dominates if it does when it is named first. -/
  right_iff : compareWithin eps a b = .right ↔ compareWithin eps b a = .left
  /-- Neither does if both are better somewhere, or none is. -/
  neither_iff : compareWithin eps a b = .neither
    ↔ (ExceedsSomewhere eps a b ↔ ExceedsSomewhere eps b a)
  /-- The objectives may come in any order, as long as it is the same in both rows. -/
  reordered : ∀ a' b' : List α, a'.length = b'.length → (List.zip a' b').Perm (List.zip a b) →
    compareWithin eps a' b' = compareWithin eps a b
  /-- No row dominates itself. -/
  ne_left_self : compareWithin eps a a ≠ .left
  /-- No two rows dominate each other. -/
  not_left_and_left : ¬ (compareWithin eps a b = .left ∧ compareWithin eps b a = .left)

/-! ## The verdict -/

/-- Who was better decides whether the first row dominates. -/
theorem verdict_eq_left_iff (aBetter bBetter : Bool) :
    Dominance.verdict aBetter bBetter = .left ↔ aBetter = true ∧ ¬ bBetter = true := by
  cases aBetter <;> cases bBetter <;> decide

/-- Who was better decides whether neither dominates. -/
theorem verdict_eq_neither_iff (aBetter bBetter : Bool) :
    Dominance.verdict aBetter bBetter = .neither ↔ (aBetter = true ↔ bBetter = true) := by
  cases aBetter <;> cases bBetter <;> decide

/-- The question whether a row is better somewhere goes over the places one by one. -/
theorem isBetterSomewhere_eq_any (eps : α) (a b : List α) :
    isBetterSomewhere eps a b = (List.zip a b).any fun p => isLessWithin eps p.2 p.1 := by
  induction a generalizing b with
  | nil => rfl
  | cons x a ih =>
    cases b with
    | nil => rfl
    | cons y b =>
      rw [isBetterSomewhere, ih]
      rfl

/-- **Being better is found out place by place.** -/
theorem isBetterSomewhere_iff (eps : α) (a b : List α) :
    isBetterSomewhere eps a b = true ↔ ExceedsSomewhere eps a b := by
  rw [isBetterSomewhere_eq_any, List.any_eq_true]
  constructor
  · rintro ⟨⟨x, y⟩, hmem, hless⟩
    exact ⟨x, y, hmem, of_decide_eq_true hless⟩
  · rintro ⟨x, y, hmem, hexceeds⟩
    exact ⟨(x, y), hmem, decide_eq_true hexceeds⟩

/-- The places may be looked at in any order. -/
theorem isBetterSomewhere_eq_of_perm {a b a' b' : List α} (eps : α)
    (h : (List.zip a' b').Perm (List.zip a b)) :
    isBetterSomewhere eps a' b' = isBetterSomewhere eps a b := by
  rw [isBetterSomewhere_eq_any, isBetterSomewhere_eq_any, h.any_eq]

section Rows

variable {eps : α} (h : ∀ x y : α, ¬ (isLessWithin eps x y = true ∧ isLessWithin eps y x = true))
  {a b : List α} (hlen : a.length = b.length)

include h hlen

/-- **The comparison is the verdict on who is better somewhere**, for rows of one length. -/
theorem compareWithin_eq_verdict_of_length_eq :
    Dominance.compareWithin eps a b
      = Dominance.verdict (isBetterSomewhere eps a b) (isBetterSomewhere eps b a) :=
  compareWithin_eq_verdict (List.forall₂_iff_zip.2 ⟨hlen, fun _ => h _ _⟩)

/-- **Dominance, place by place.** -/
theorem compareWithin_eq_left_iff :
    Dominance.compareWithin eps a b = .left
      ↔ ExceedsSomewhere eps a b ∧ ¬ ExceedsSomewhere eps b a := by
  rw [compareWithin_eq_verdict_of_length_eq h hlen, verdict_eq_left_iff, isBetterSomewhere_iff,
    isBetterSomewhere_iff]

/-- A comparison is not decided if both rows are better somewhere, or none is. -/
theorem compareWithin_eq_neither_iff :
    Dominance.compareWithin eps a b = .neither
      ↔ (ExceedsSomewhere eps a b ↔ ExceedsSomewhere eps b a) := by
  rw [compareWithin_eq_verdict_of_length_eq h hlen, verdict_eq_neither_iff, isBetterSomewhere_iff,
    isBetterSomewhere_iff]

/-- **Objectives may be compared in any order.** -/
theorem compareWithin_eq_of_perm {a' b' : List α} (hlen' : a'.length = b'.length)
    (hperm : (List.zip a' b').Perm (List.zip a b)) :
    Dominance.compareWithin eps a' b' = Dominance.compareWithin eps a b := by
  have hback : (List.zip b' a').Perm (List.zip b a) := by
    rw [← List.zip_swap a' b', ← List.zip_swap a b]
    exact hperm.map Prod.swap
  rw [compareWithin_eq_verdict_of_length_eq h hlen, compareWithin_eq_verdict_of_length_eq h hlen',
    isBetterSomewhere_eq_of_perm eps hperm, isBetterSomewhere_eq_of_perm eps hback]

end Rows

/-! ## All values -/

namespace Binary64

/-- **Rows are compared place by place**, whatever their values and for every tolerance that is
not below zero. -/
theorem isComponentwise_compareWithin {eps : Binary64} (heps : 0 ≤ eps) {a b : List Binary64}
    (hlen : a.length = b.length) : Dominance.IsComponentwise eps a b := by
  have hnumber : eps.IsNumber := (isNumber_of_le heps).2
  have hnonneg : 0 ≤ eps.grade := (le_iff (by decide) hnumber).1 heps
  have hvalues := not_isLessWithin_and (isUnsigned_reading hnumber hnonneg)
  have hleft := compareWithin_eq_left_iff hvalues hlen
  have hback := compareWithin_eq_left_iff hvalues hlen.symm
  refine ⟨hleft, compareWithin_eq_right_iff hvalues a b, compareWithin_eq_neither_iff hvalues hlen,
    fun a' b' hlen' => compareWithin_eq_of_perm hvalues hlen hlen',
    compareWithin_self_ne_left hvalues a, ?_⟩
  -- one of the two rows would have to be better somewhere and nowhere
  rintro ⟨hab, hba⟩
  exact (hback.1 hba).2 (hleft.1 hab).1

/-- A row with a NaN between two finite values. -/
def gappedRow : List Binary64 :=
  [⟨0x4000000000000000⟩, ⟨0x7ff8000000000000⟩, ⟨0x3ff0000000000000⟩]

/-- A row with infinity between a lower value and one that is higher by less than the tolerance. -/
def peakedRow : List Binary64 :=
  [⟨0x3ff0000000000000⟩, Scalar.infinity, ⟨4607182418800332660⟩]

/-- The row with the gap dominates the other one: only its first value differs. -/
theorem gappedRow_isComponentwise :
    ((0 : Binary64) ≤ defaultTolerance ∧ gappedRow.length = peakedRow.length)
      ∧ Dominance.IsComponentwise defaultTolerance gappedRow peakedRow
      ∧ ExceedsSomewhere defaultTolerance gappedRow peakedRow
      ∧ ¬ ExceedsSomewhere defaultTolerance peakedRow gappedRow := by
  have htolerance : (0 : Binary64) ≤ defaultTolerance := by decide +kernel
  have hlen : gappedRow.length = peakedRow.length := rfl
  have hcompare := isComponentwise_compareWithin htolerance hlen
  have hleft : Dominance.compareWithin defaultTolerance gappedRow peakedRow = .left := by
    decide +kernel
  exact ⟨⟨htolerance, hlen⟩, hcompare, hcompare.left_iff.1 hleft⟩

end Binary64

end ParetoSelection
