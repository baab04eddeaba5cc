import ParetoSelection.Proofs.Dominance
import ParetoSelection.Proofs.Maxima.Front
import ParetoSelection.Proofs.StableSort

/-!
# The finders on rows that are told apart

Among rows that are compared by grades dominance is a strict order, a row that
precedes another in the order of the sort is not dominated by it, and the
finders do what they are meant to: divide and conquer finds the front
(`isFrontOf_kung`), so does elimination, and where there is a single objective
the candidates tied with the maximum are the front (`isFrontOf_oneObjective`).
-/

namespace ParetoSelection

open Scalar

variable {α ι : Type} [Scalar α]

namespace Maxima

variable {row : ι → List α} {grade : α → Int} {xs : List ι}

/-- Dominance is a strict order among rows that are compared by grades. -/
theorem isStrictOn_of_rowsGraded
    (h : ∀ i ∈ xs, ∀ j ∈ xs, RowsGraded grade (row i) (row j)) :
    IsStrictOn (Beats row) xs where
  irrefl i hi := not_dominates_self (h i hi i hi)
  trans i hi j hj k hk := dominates_trans (h i hi j hj) (h j hj k hk) (h i hi k hk)

section Sorting

variable {κ : Type} [Ord κ] [Std.TransOrd κ] {key : α → κ}

/-- The order of the sort is transitive among rows that are sorted by keys. -/
theorem lexDescending_isLE_trans {a b c : List α}
    (hab : lexDescending a b = compare (b.map key) (a.map key))
    (hbc : lexDescending b c = compare (c.map key) (b.map key))
    (hac : lexDescending a c = compare (c.map key) (a.map key))
    (h : (lexDescending a b).isLE = true) (h' : (lexDescending b c).isLE = true) :
    (lexDescending a c).isLE = true := by
  rw [hab] at h
  rw [hbc] at h'
  rw [hac]
  exact Std.TransCmp.isLE_trans h' h

/-- Of two rows that are sorted by keys, one precedes the other. -/
theorem lexDescending_isLE_total {a b : List α}
    (hab : lexDescending a b = compare (b.map key) (a.map key))
    (hba : lexDescending b a = compare (a.map key) (b.map key)) :
    ((lexDescending a b).isLE || (lexDescending b a).isLE) = true := by
  rw [hab, hba, @Std.OrientedCmp.eq_swap _ compare _ (b.map key)]
  cases compare (a.map key) (b.map key) <;> rfl

/-- **Candidates are sorted**, if rows are sorted by keys. -/
theorem pairwise_descending (h : ∀ i ∈ xs, ∀ j ∈ xs,
      lexDescending (row i) (row j) = compare ((row j).map key) ((row i).map key)) :
    (descending row xs).Pairwise fun i j => (lexDescending (row i) (row j)).isLE = true := by
  refine pairwise_stableSort_of_mem (fun i hi j hj k hk => ?_) fun i hi j hj => ?_
  · exact lexDescending_isLE_trans (h i hi j hj) (h j hj k hk) (h i hi k hk)
  · exact lexDescending_isLE_total (h i hi j hj) (h j hj i hi)

/-- **Candidates whose rows tie keep their order**, if rows are sorted by keys. -/
theorem filter_descending (h : ∀ i ∈ xs, ∀ j ∈ xs,
      lexDescending (row i) (row j) = compare ((row j).map key) ((row i).map key))
    {i : ι} (hi : i ∈ xs) :
    ((descending row xs).filter fun j => (lexDescending (row i) (row j)).isEq)
      = xs.filter fun j => (lexDescending (row i) (row j)).isEq := by
  refine filter_stableSort_of_mem (fun i hi j hj k hk => ?_) (fun i hi j hj => ?_)
    fun a ha b hb hia hib => ?_
  · exact lexDescending_isLE_trans (h i hi j hj) (h j hj k hk) (h i hi k hk)
  · exact lexDescending_isLE_total (h i hi j hj) (h j hj i hi)
  · -- `a` ties with `i`, and `i` with `b`
    refine lexDescending_isLE_trans (h a ha i hi) (h i hi b hb) (h a ha b hb) ?_ ?_
    · rw [h i hi a ha] at hia
      rw [h a ha i hi, @Std.OrientedCmp.eq_swap _ compare, Ordering.isLE_swap]
      exact Ordering.isGE_of_eq_eq (Ordering.isEq_iff_eq_eq.1 hia)
    · exact Ordering.isLE_of_eq_eq (Ordering.isEq_iff_eq_eq.1 hib)

end Sorting

/-- Of two candidates the one that precedes is not dominated, and the short test is the
test for dominance. -/
theorem not_beats_and_isDominatedFromAbove_eq
    (h : ∀ i ∈ xs, ∀ j ∈ xs, RowsGraded grade (row i) (row j)) (hne : ∀ i ∈ xs, row i ≠ [])
    {i j : ι} (hi : i ∈ xs) (hj : j ∈ xs) (hle : (lexDescending (row i) (row j)).isLE = true) :
    ¬ Beats row j i ∧ isDominatedFromAbove (row j) (row i) = dominates (row i) (row j) := by
  have hij := h i hi j hj
  refine ⟨not_dominates_of_lexDescending hij hle, ?_⟩
  obtain ⟨y, b, hb⟩ := List.exists_cons_of_ne_nil (hne i hi)
  obtain ⟨x, a, ha⟩ := List.exists_cons_of_ne_nil (hne j hj)
  rw [hb, ha] at hij hle ⊢
  exact isDominatedFromAbove_eq hij hle

/-- **Divide and conquer finds the front** of rows that are compared by
grades. -/
theorem isFrontOf_kung (h : ∀ i ∈ xs, ∀ j ∈ xs, RowsGraded grade (row i) (row j))
    (hne : ∀ i ∈ xs, row i ≠ []) : IsFrontOf (Beats row) xs (kung row xs) := by
  have hperm : (descending row xs).Perm xs := stableSort_perm _ xs
  have hsorted := pairwise_descending fun i hi j hj => lexDescending_eq (h i hi j hj)
  refine (isFrontOf_ofSorted row
    ((isStrictOn_of_rowsGraded h).mono hperm.subset) ?_).of_perm hperm
  refine hsorted.imp_of_mem fun {i j} hi hj hle => ?_
  obtain ⟨hnot, hshort⟩ :=
    not_beats_and_isDominatedFromAbove_eq h hne (hperm.subset hi) (hperm.subset hj) hle
  exact ⟨hnot, by rw [hshort, Beats]⟩

/-- **Elimination finds the front** of rows that are compared by grades. -/
theorem isFrontOf_best_of_rowsGraded
    (h : ∀ i ∈ xs, ∀ j ∈ xs, RowsGraded grade (row i) (row j)) :
    IsFrontOf (Beats row) xs (best row xs) :=
  isFrontOf_best (isStrictOn_of_rowsGraded h) fun i hi j hj => compare_eq_right_iff (h i hi j hj)

/-! ## A single objective -/

/-- The running maximum is attained, and no value exceeds it. -/
theorem exists_maximum (h : ∀ i ∈ xs, ∀ j ∈ xs, firstObjective row i < firstObjective row j
      ↔ grade (firstObjective row i) < grade (firstObjective row j))
    (hself : ∀ i ∈ xs, (firstObjective row i != firstObjective row i) = false)
    (hinf : ∀ i ∈ xs, negInfinity < firstObjective row i) (hne : xs ≠ []) :
    ∃ k ∈ xs, xs.foldl (fun m i => maxNum m (firstObjective row i)) negInfinity
        = firstObjective row k
      ∧ ∀ i ∈ xs, grade (firstObjective row i) ≤ grade (firstObjective row k) := by
  induction xs using List.reverseRecOn with
  | nil => exact absurd rfl hne
  | append_singleton xs i ih =>
    have hleft {j : ι} (hj : j ∈ xs) : j ∈ xs ++ [i] := List.mem_append_left _ hj
    have hi : i ∈ xs ++ [i] := List.mem_append_right _ (List.mem_singleton_self i)
    rw [List.foldl_append, List.foldl_cons, List.foldl_nil]
    by_cases hnil : xs = []
    · subst hnil
      refine ⟨i, hi, ?_, fun j hj => ?_⟩
      · rw [List.foldl_nil, maxNum, decide_eq_true (hinf i hi), Bool.true_or, if_pos rfl]
      · rw [List.mem_singleton.1 hj]
    · obtain ⟨k, hk, hbest, hmax⟩ := ih (fun j hj l hl => h j (hleft hj) l (hleft hl))
        (fun j hj => hself j (hleft hj)) (fun j hj => hinf j (hleft hj)) hnil
      have hlt := h k (hleft hk) i hi
      rw [hbest, maxNum, hself k (hleft hk), Bool.or_false]
      split
      · rename_i hlarger
        have hki := hlt.1 (of_decide_eq_true hlarger)
        refine ⟨i, hi, rfl, fun j hj => ?_⟩
        rcases List.mem_append.1 hj with hj | hj
        · exact Int.le_of_lt (Int.lt_of_le_of_lt (hmax j hj) hki)
        · rw [List.mem_singleton.1 hj]
      · rename_i hsmaller
        refine ⟨k, hleft hk, rfl, fun j hj => ?_⟩
        rcases List.mem_append.1 hj with hj | hj
        · exact hmax j hj
        · rw [List.mem_singleton.1 hj]
          exact Int.not_lt.1 fun hki => hsmaller (decide_eq_true (hlt.2 hki))

/-- **The candidates tied with the maximum are the front** where there is one
objective. -/
theorem isFrontOf_oneObjective (h : ∀ i ∈ xs, ∀ j ∈ xs, RowsGraded grade (row i) (row j))
    (hlen : ∀ i ∈ xs, (row i).length = 1)
    (hself : ∀ i ∈ xs, ∀ x ∈ row i, (x != x) = false)
    (hinf : ∀ i ∈ xs, ∀ x ∈ row i, negInfinity < x) :
    IsFrontOf (Beats row) xs (oneObjective row xs) := by
  have hrow {i : ι} (hi : i ∈ xs) : row i = [firstObjective row i] := by
    obtain ⟨x, hx⟩ := List.length_eq_one_iff.1 (hlen i hi)
    rw [firstObjective, hx]
    rfl
  have hmem {i : ι} (hi : i ∈ xs) : firstObjective row i ∈ row i := by
    rw [hrow hi]
    exact List.mem_singleton_self _
  have hgraded {i j : ι} (hi : i ∈ xs) (hj : j ∈ xs) :
      IsGraded grade (firstObjective row i) (firstObjective row j) := by
    have hij := h i hi j hj
    rw [hrow hi, hrow hj, RowsGraded, List.forall₂_cons] at hij
    exact hij.1.1
  have hbeats {i j : ι} (hi : i ∈ xs) (hj : j ∈ xs) :
      Beats row i j ↔ grade (firstObjective row j) < grade (firstObjective row i) := by
    rw [Beats, dominates_iff (h i hi j hj), hrow hi, hrow hj, IsBelow, IsBelow,
      List.forall₂_cons, List.forall₂_cons, and_iff_left List.Forall₂.nil,
      and_iff_left List.Forall₂.nil, Int.not_le]
    exact and_iff_right_of_imp Int.le_of_lt
  by_cases hnil : xs = []
  · subst hnil
    exact ⟨List.Subperm.refl _, fun i hi => absurd hi List.not_mem_nil,
      fun k hk => absurd hk List.not_mem_nil⟩
  obtain ⟨b, hb, hbest, hmax⟩ := exists_maximum (fun i hi j hj => (hgraded hi hj).lt_iff)
    (fun i hi => hself i hi _ (hmem hi)) (fun i hi => hinf i hi _ (hmem hi)) hnil
  have hfront (i : ι) : i ∈ oneObjective row xs
      ↔ i ∈ xs ∧ grade (firstObjective row i) = grade (firstObjective row b) := by
    rw [oneObjective, List.mem_filter, hbest]
    refine and_congr_right fun hi => ?_
    rw [(hgraded hb hi).isEqualWithin_iff]
    exact eq_comm
  refine ⟨List.filter_sublist.subperm, fun i hi k hk => ?_, fun k hk => ?_⟩
  · obtain ⟨hi, htied⟩ := (hfront i).1 hi
    rw [hbeats hk hi, htied, Int.not_lt]
    exact hmax k hk
  · rcases Int.lt_or_eq_of_le (hmax k hk) with hlt | heq
    · exact Or.inr ⟨b, (hfront b).2 ⟨hb, rfl⟩, (hbeats hb hk).2 hlt⟩
    · exact Or.inl ((hfront k).2 ⟨hk, heq⟩)

end Maxima

end ParetoSelection
