import ParetoSelection.Fronts.Strategy
import ParetoSelection.Proofs.Fronts.Partition

/-!
# What a ranking reads of a matrix

Counting dominators and elimination look at rows through one window only, the
comparison of two rows: matrices whose rows compare alike are ranked alike, whatever
their values are (`pairwiseFronts_congr`, `best_congr`). Divide and conquer also looks
at the lexicographic order, so nothing of the kind holds of it.

A ranking with each front in order is no more than its ranks
(`RankedFronts.eq_of_rank_eq`).
-/

namespace ParetoSelection

variable {α ι : Type} [Scalar α]

/-! ## Elimination -/

namespace Maxima

variable {row row' : ι → List α}

/-- A pass depends on the comparisons alone. -/
theorem Pass.run_congr
    (h : ∀ i j, Dominance.compare (row' i) (row' j) = Dominance.compare (row i) (row j))
    (p : Pass ι) (unseen : List ι) : p.run row' unseen = p.run row unseen := by
  fun_induction Pass.run row p unseen with
  | case1 p => rw [Pass.run]
  | case2 p i unseen hcmp ih =>
    rw [Pass.run, h, hcmp]
    exact ih
  | case3 p i unseen hcmp ih =>
    rw [Pass.run, h, hcmp]
    exact ih
  | case4 p i unseen hcmp ih =>
    rw [Pass.run, h, hcmp]
    exact ih

/-- So does what it leaves for the next one. -/
theorem Pass.rest_congr
    (h : ∀ i j, Dominance.compare (row' i) (row' j) = Dominance.compare (row i) (row j))
    (p : Pass ι) : p.rest row' = p.rest row := by
  unfold Pass.rest Pass.sweep dominates
  simp only [h]

/-- **Elimination depends on the comparisons alone.** -/
theorem best_congr
    (h : ∀ i j, Dominance.compare (row' i) (row' j) = Dominance.compare (row i) (row j))
    (candidates : List ι) : best row' candidates = best row candidates := by
  fun_induction best row candidates with
  | case1 => rw [best]
  | case2 i unseen pass ih =>
    rw [best, Pass.run_congr h, Pass.rest_congr h]
    exact congrArg (_ :: ·) ih

end Maxima

/-! ## Counting dominators -/

/-- **Counting dominators depends on who dominates whom alone.** -/
theorem pairwiseFronts_congr {m m' : FitnessMatrix α} (hsize : m'.size = m.size)
    (h : ∀ i j, dominates (m'.row i) (m'.row j) = dominates (m.row i) (m.row j)) :
    m'.pairwiseFronts = m.pairwiseFronts := by
  have hempty : m'.isEmpty = m.isEmpty := by
    rw [Bool.eq_iff_iff, Array.isEmpty_iff_size_eq_zero, Array.isEmpty_iff_size_eq_zero, hsize]
  have hcandidates : m'.candidates = m.candidates := congrArg List.range hsize
  have hbeaten : Pairwise.dominatedBy m' = Pairwise.dominatedBy m := by
    funext i
    unfold Pairwise.dominatedBy
    rw [hcandidates]
    simp only [h]
  have hcount : Pairwise.dominatorCount m' = Pairwise.dominatorCount m := by
    funext j
    unfold Pairwise.dominatorCount
    rw [hcandidates]
    simp only [h]
  unfold FitnessMatrix.pairwiseFronts Pairwise.firstFront
  rw [hempty, hcandidates, hbeaten, hcount, hsize]

/-! ## Ranks determine the fronts -/

namespace RankedFronts

variable {r r' : RankedFronts}

/-- **Rankings in order are the same if the ranks are.** -/
theorem eq_of_rank_eq (h : r.ascending.IsPartition) (h' : r'.ascending.IsPartition)
    (hsize : r.size = r'.size)
    (hrank : ∀ i < r.size, r.ascending.rank i = r'.ascending.rank i) :
    r.ascending = r'.ascending := by
  have hrank (i k : Nat) : (i < r.ascending.size ∧ r.ascending.rank i = k)
      ↔ i < r'.ascending.size ∧ r'.ascending.rank i = k := by
    show i < r.size ∧ _ ↔ i < r'.size ∧ _
    rw [← hsize]
    exact and_congr_right fun hi => by rw [hrank i hi]
  have hlength : r.ascending.fronts.length = r'.ascending.fronts.length := by
    have hiff (k : Nat) : k < r.ascending.fronts.length ↔ k < r'.ascending.fronts.length := by
      rw [h.lt_length_iff, h'.lt_length_iff]
      exact exists_congr fun i => hrank i k
    refine Nat.le_antisymm (Nat.le_of_not_lt fun hlt => ?_) (Nat.le_of_not_lt fun hlt => ?_)
    · exact Nat.lt_irrefl _ ((hiff _).1 hlt)
    · exact Nat.lt_irrefl _ ((hiff _).2 hlt)
  have hfronts : r.ascending.fronts = r'.ascending.fronts := by
    refine List.ext_getElem hlength fun k hk hk' => ?_
    -- both are in ascending order, and have the same members
    have hlt := pairwise_lt_ascending (isPartition_ascending.1 h).nodup (List.getElem_mem hk)
    have hlt' := pairwise_lt_ascending (isPartition_ascending.1 h').nodup (List.getElem_mem hk')
    refine List.Perm.eq_of_pairwise (fun i j _ _ hij hji => absurd hij (Nat.lt_asymm hji))
      hlt hlt' ?_
    refine (List.perm_ext_iff_of_nodup (hlt.imp Nat.ne_of_lt) (hlt'.imp Nat.ne_of_lt)).2 fun i => ?_
    rw [← List.getD_eq_getElem _ [] hk, ← List.getD_eq_getElem _ [] hk', h.mem_front_iff,
      h'.mem_front_iff]
    exact hrank i k
  show (⟨r.size, _⟩ : RankedFronts) = ⟨r'.size, _⟩
  rw [hsize]
  exact congrArg _ hfronts

end RankedFronts

end ParetoSelection
