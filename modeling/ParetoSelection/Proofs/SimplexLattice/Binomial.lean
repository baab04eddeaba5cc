import Mathlib.Data.Nat.Choose.Basic
import ParetoSelection.SimplexLattice

/-!
# Binomial coefficients in words

A binomial coefficient is multiplied up from the left: after `i` factors the product is
the coefficient over `i`, which is why every division on the way is exact
(`choose_mul_div`). The count is therefore right as long as every product fits into a word
before it is divided (`Fits`), and the largest word as soon as one does not
(`choose_eq_ite`). Nothing else can go wrong, and which of the two happens is a matter of
the coefficients alone.
-/

namespace ParetoSelection

namespace SimplexLattice

/-- **No product on the way to a binomial coefficient exceeds a word.** The way leads over
the smaller ones of `k` and `n - k` factors. -/
def Fits (n k : Nat) : Prop :=
  ∀ i < min k (n - k), n.choose i * (n - i) ≤ maxWord

instance (n k : Nat) : Decidable (Fits n k) :=
  inferInstanceAs (Decidable (∀ i < _, _))

/-- The next factor turns one coefficient into the next one, without a remainder. -/
theorem choose_mul_div (n k : Nat) : n.choose k * (n - k) / (k + 1) = n.choose (k + 1) := by
  rw [← Nat.choose_succ_right_eq]
  exact Nat.mul_div_cancel _ (Nat.succ_pos k)

/-- **The remaining factors** lead from one coefficient to another, or to the largest word. -/
theorem chooseFrom_eq_ite (n steps done : Nat) :
    chooseFrom n steps done (n.choose done)
      = if ∀ i < steps, n.choose (done + i) * (n - (done + i)) ≤ maxWord
        then n.choose (done + steps) else maxWord := by
  induction steps generalizing done with
  | zero => exact (if_pos fun i hi => absurd hi (Nat.not_lt_zero i)).symm
  | succ steps ih =>
    rw [chooseFrom, choose_mul_div, ih]
    -- the first of the products is the one that is made now
    have hsplit : (∀ i < steps + 1, n.choose (done + i) * (n - (done + i)) ≤ maxWord)
        ↔ n.choose done * (n - done) ≤ maxWord
          ∧ ∀ i < steps, n.choose (done + 1 + i) * (n - (done + 1 + i)) ≤ maxWord := by
      rw [Nat.forall_lt_succ_left]
      refine and_congr Iff.rfl (forall₂_congr fun i _ => ?_)
      rw [Nat.add_assoc, Nat.add_comm 1 i]
    by_cases hfirst : maxWord < n.choose done * (n - done)
    · rw [if_pos hfirst, if_neg fun h => Nat.not_le_of_lt hfirst (hsplit.1 h).1]
    · rw [if_neg hfirst, Nat.add_assoc, Nat.add_comm 1 steps]
      refine if_congr ?_ rfl rfl
      rw [hsplit]
      exact (and_iff_right (Nat.le_of_not_lt hfirst)).symm

/-- The shorter way leads to the same coefficient. -/
theorem choose_min_eq {n k : Nat} (hle : k ≤ n) : n.choose (min k (n - k)) = n.choose k := by
  obtain h | h := Nat.le_total k (n - k)
  · rw [Nat.min_eq_left h]
  · rw [Nat.min_eq_right h, Nat.choose_symm hle]

/-- **The number of ways to choose**, as a word: the binomial coefficient if everything
fits, and the largest word otherwise. -/
theorem choose_eq_ite (n k : Nat) :
    choose n k = if Fits n k then n.choose k else maxWord := by
  unfold choose
  by_cases hlt : n < k
  · have hfits : Fits n k := by
      intro i hi
      rw [Nat.sub_eq_zero_of_le (Nat.le_of_lt hlt), Nat.min_zero] at hi
      exact absurd hi (Nat.not_lt_zero i)
    rw [if_pos hlt, if_pos hfits, Nat.choose_eq_zero_of_lt hlt]
  · have hle := Nat.le_of_not_lt hlt
    have hloop := chooseFrom_eq_ite n (min k (n - k)) 0
    simp only [Nat.choose_zero_right, Nat.zero_add] at hloop
    rw [if_neg hlt, hloop, choose_min_eq hle]
    rfl

end SimplexLattice

end ParetoSelection
