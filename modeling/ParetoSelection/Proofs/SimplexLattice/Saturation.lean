import Mathlib.Data.Nat.Choose.Basic
import ParetoSelection.Proofs.SimplexLattice.Binomial

/-!
# Where counting saturates

A binomial coefficient is counted by multiplying first and dividing afterwards, and the
largest word stands for it as soon as a product outgrows a word. The products grow up to the
middle of the row, which is as far as they go, so the last of them decides: it is the
coefficient times the number of its factors (`fits_iff`). Hence a count can be told from the
coefficient alone, without the way to it.

It is *not* the coefficient cut off at the largest word. A coefficient that fits into a word
by less than the number of its factors is lost although it could be returned, and these
coefficients, and no others, are counted wrong (`choose_eq_min_iff`). The first of them are
in row `63`; in shorter rows there are none (`choose_eq_of_le`).
-/

namespace ParetoSelection

namespace SimplexLattice

/-- **The coefficients grow** up to the middle of the row. -/
theorem choose_le_choose_of_le_half {n i k : Nat} (hik : i ≤ k) (hk : k ≤ n / 2) :
    n.choose i ≤ n.choose k := by
  induction k, hik using Nat.le_induction with
  | base => exact Nat.le_refl _
  | succ k hik ih =>
    exact Nat.le_trans (ih (Nat.le_of_succ_le hk)) (Nat.choose_le_succ_of_lt_half_left hk)

/-- **The last product decides** whether all of them fit into a word. -/
theorem fits_iff (n k : Nat) : Fits n k ↔ n.choose k * min k (n - k) ≤ maxWord := by
  obtain hlt | hle := Nat.lt_or_ge n k
  · -- there are no products, and there is nothing to count
    rw [Nat.choose_eq_zero_of_lt hlt, Nat.zero_mul]
    refine iff_of_true (fun i hi => ?_) (Nat.zero_le _)
    rw [Nat.sub_eq_zero_of_le (Nat.le_of_lt hlt), Nat.min_zero] at hi
    exact absurd hi (Nat.not_lt_zero i)
  unfold Fits
  rw [← choose_min_eq hle]
  have hhalf : min k (n - k) ≤ n / 2 := by omega
  generalize min k (n - k) = factors at hhalf ⊢
  constructor
  · intro hall
    cases factors with
    | zero => exact Nat.zero_le _
    | succ i =>
      rw [Nat.choose_succ_right_eq]
      exact hall i (Nat.lt_succ_self i)
  · intro hlast i hi
    rw [← Nat.choose_succ_right_eq]
    exact Nat.le_trans (Nat.mul_le_mul (choose_le_choose_of_le_half hi hhalf) hi) hlast

/-- No coefficient of a row is counted wrong if the row is not longer than `62`. -/
theorem choose_eq_of_le {n k : Nat} (hn : n ≤ 62) : choose n k = n.choose k := by
  have hmiddle : (62).choose 31 * 31 ≤ maxWord := by
    rw [Nat.choose_eq_descFactorial_div_factorial]
    decide
  have hfactors : min k (n - k) ≤ 31 := by omega
  rw [choose_eq_ite, if_pos ((fits_iff n k).2 ?_)]
  calc n.choose k * min k (n - k)
      ≤ (62).choose k * 31 := Nat.mul_le_mul (Nat.choose_le_choose k hn) hfactors
    _ ≤ (62).choose 31 * 31 := Nat.mul_le_mul_right 31 (Nat.choose_le_middle k 62)
    _ ≤ maxWord := hmiddle

/-- **Counting saturates early.** The count is the binomial coefficient if the coefficient
times the number of its factors fits into a word, and the largest word if not. It is the
smaller one of the coefficient and the largest word, except where the coefficient is below
the largest word and the product is above. -/
theorem choose_eq_min_iff (n k : Nat) :
    choose n k = (if n.choose k * min k (n - k) ≤ maxWord then n.choose k else maxWord)
      ∧ (choose n k = min (n.choose k) maxWord
          ↔ ¬ (n.choose k < maxWord ∧ maxWord < n.choose k * min k (n - k))) := by
  have hcount : choose n k
      = if n.choose k * min k (n - k) ≤ maxWord then n.choose k else maxWord := by
    rw [choose_eq_ite]
    exact if_congr (fits_iff n k) rfl rfl
  refine ⟨hcount, ?_⟩
  rw [hcount]
  split_ifs with hfits
  · -- a product without factors is zero, and then the coefficient is at most one
    have hle : n.choose k ≤ maxWord := by
      obtain hnone | hsome := Nat.eq_zero_or_pos (min k (n - k))
      · obtain hlt | hle := Nat.lt_or_ge n k
        · rw [Nat.choose_eq_zero_of_lt hlt]
          exact Nat.zero_le _
        · rw [← choose_min_eq hle, hnone, Nat.choose_zero_right]
          decide
      · exact Nat.le_trans (Nat.le_mul_of_pos_right _ hsome) hfits
    exact iff_of_true (Nat.min_eq_left hle).symm fun h => Nat.not_lt_of_le hfits h.2
  · have hlarge := Nat.lt_of_not_le hfits
    omega

/-- **A coefficient that could be returned and is not**: there are fewer than `2 ^ 60` ways to
choose 29 of 63, and the count is the largest word. -/
theorem choose_sixtyThree_ne :
    choose 63 29 = maxWord ∧ (63).choose 29 = 759510004936100355
      ∧ choose 63 29 ≠ min ((63).choose 29) maxWord := by
  have hways : (63).choose 29 = 759510004936100355 := by
    rw [Nat.choose_eq_descFactorial_div_factorial]
    decide
  have hcount : choose 63 29 = maxWord := by decide
  refine ⟨hcount, hways, ?_⟩
  rw [hcount, hways]
  decide

end SimplexLattice

end ParetoSelection
