import ParetoSelection.Fronts.Peeling
import ParetoSelection.Fronts.Pairwise
import ParetoSelection.Proofs.Fronts.Layers

/-!
# Counting dominators finds the layers

The counting algorithm never asks again who dominates whom: all it knows of a
candidate, once it runs, is how many of its dominators are not yet in a front.
The loop keeps that count exact (`Counting`). A count of zero then means that
every dominator is placed, which is the condition for the next layer, so that
what the loop releases is a layer, and it ends where the layers end.

No step of this asks whether dominance runs in a circle. It is only afterwards
that the layers turn out to contain everybody exactly where there is none.

The counters are natural numbers, and lowering one that is zero would not show
in the result. It does not happen (`Counting.count_le`).
-/

namespace ParetoSelection

variable {α : Type} [Scalar α]

namespace Pairwise

/-! ## Lowering counters -/

/-- Lowering the counters of a list of candidates takes off each counter how
often the candidate is listed. -/
theorem getD_counts_foldl_lower (lowered : List Nat) (s : Release) (j : Nat) :
    (lowered.foldl Release.lower s).counts.getD j 0 = s.counts.getD j 0 - lowered.count j := by
  induction lowered generalizing s with
  | nil => rfl
  | cons i lowered ih =>
    rw [List.foldl_cons, ih, List.count_cons]
    show (s.counts.setIfInBounds i (s.counts.getD i 0 - 1)).getD j 0 - _ = _
    simp only [Array.getD_eq_getD_getElem?, Array.getElem?_setIfInBounds]
    by_cases hij : i = j
    · subst hij
      by_cases hi : i < s.counts.size
      · simp [hi]
        omega
      · simp [hi]
    · simp [hij]

/-- The last candidate of a list is released if its counter is used up by the
list. -/
theorem released_foldl_lower_append (lowered : List Nat) (counts : Array Nat) (i : Nat) :
    ((lowered ++ [i]).foldl Release.lower ⟨counts, []⟩).released
      = if counts.getD i 0 ≤ lowered.count i + 1 then
          (lowered.foldl Release.lower ⟨counts, []⟩).released ++ [i]
        else (lowered.foldl Release.lower ⟨counts, []⟩).released := by
  rw [List.foldl_append, List.foldl_cons, List.foldl_nil]
  show (if (lowered.foldl Release.lower ⟨counts, []⟩).counts.getD i 0 - 1 = 0 then
    (lowered.foldl Release.lower ⟨counts, []⟩).released ++ [i]
    else (lowered.foldl Release.lower ⟨counts, []⟩).released) = _
  rw [getD_counts_foldl_lower]
  refine if_congr ?_ rfl rfl
  show counts.getD i 0 - _ - 1 = 0 ↔ _
  rw [Nat.sub_sub, Nat.sub_eq_zero_iff_le]

/-- The candidates that are released are those of the list whose counter was
not more than the number of times they are listed. -/
theorem mem_released_foldl_lower (lowered : List Nat) (counts : Array Nat) (j : Nat) :
    j ∈ (lowered.foldl Release.lower ⟨counts, []⟩).released
      ↔ j ∈ lowered ∧ counts.getD j 0 ≤ lowered.count j := by
  induction lowered using List.reverseRecOn with
  | nil => simp
  | append_singleton lowered i ih =>
    rw [released_foldl_lower_append, List.count_append, List.mem_append, List.mem_singleton]
    by_cases hij : j = i
    · subst hij
      rw [List.count_singleton_self]
      split
      · rename_i hle
        exact iff_of_true (List.mem_append_right _ (List.mem_singleton_self j)) ⟨Or.inr rfl, hle⟩
      · rename_i hnot
        refine iff_of_false (fun hmem => hnot ?_) fun h => hnot h.2
        exact Nat.le_succ_of_le (ih.1 hmem).2
    · have hcount : List.count j [i] = 0 :=
        List.count_eq_zero.2 fun hmem => hij (List.mem_singleton.1 hmem)
      rw [hcount, Nat.add_zero (lowered.count j), or_iff_left hij, ← ih]
      split
      · rw [List.mem_append, List.mem_singleton, or_iff_left hij]
      · exact Iff.rfl

/-- Nobody is released twice if no counter is lowered below zero. -/
theorem nodup_released_foldl_lower (lowered : List Nat) (counts : Array Nat)
    (h : ∀ j, lowered.count j ≤ counts.getD j 0) :
    (lowered.foldl Release.lower ⟨counts, []⟩).released.Nodup := by
  induction lowered using List.reverseRecOn with
  | nil => exact List.nodup_nil
  | append_singleton lowered i ih =>
    have hbefore : ∀ j, lowered.count j ≤ counts.getD j 0 := fun j =>
      Nat.le_trans (by rw [List.count_append]; exact Nat.le_add_right _ _) (h j)
    rw [released_foldl_lower_append]
    split
    · -- `i` is listed once more, so its counter has not been at zero before
      refine List.nodup_append'.2 ⟨ih hbefore, List.nodup_singleton i, ?_⟩
      refine List.disjoint_singleton.2 fun hmem => ?_
      have hle := ((mem_released_foldl_lower lowered counts i).1 hmem).2
      have hlt := h i
      rw [List.count_append, List.count_singleton_self] at hlt
      exact Nat.not_succ_le_self _ (Nat.le_trans hlt hle)
    · exact ih hbefore

/-! ## What a front takes off the counters -/

/-- For each candidate, those it dominates. -/
def beaten (m : FitnessMatrix α) : Array (List Nat) :=
  (m.candidates.map (dominatedBy m)).toArray

/-- For each candidate, how many dominate it. -/
def dominatorCounts (m : FitnessMatrix α) : Array Nat :=
  (m.candidates.map (dominatorCount m)).toArray

/-- The fronts of a matrix that has rows, in terms of the two tables. -/
theorem pairwiseFronts_eq {m : FitnessMatrix α} (h : 0 < m.size) :
    m.pairwiseFronts = ⟨m.size, firstFront m (dominatorCounts m)
      :: following (beaten m) m.size (dominatorCounts m) (firstFront m (dominatorCounts m))⟩ := by
  have hempty : m.isEmpty = false := by
    rw [Bool.eq_false_iff, ne_eq, Array.isEmpty_iff_size_eq_zero]
    exact Nat.ne_of_gt h
  unfold FitnessMatrix.pairwiseFronts
  rw [hempty]
  rfl

/-- A matrix without rows has no fronts. -/
theorem pairwiseFronts_of_size_eq_zero {m : FitnessMatrix α} (h : m.size = 0) :
    m.pairwiseFronts = ⟨0, []⟩ := by
  unfold FitnessMatrix.pairwiseFronts
  rw [if_pos (Array.isEmpty_iff_size_eq_zero.2 h)]

/-- The fronts are fronts of all candidates. -/
@[simp]
theorem size_pairwiseFronts (m : FitnessMatrix α) : m.pairwiseFronts.size = m.size := by
  rcases Nat.eq_zero_or_pos m.size with h | h
  · rw [pairwiseFronts_of_size_eq_zero h, h]
  · rw [pairwiseFronts_eq h]

/-- Everybody has a list of those they dominate. -/
@[simp]
theorem size_beaten (m : FitnessMatrix α) : (beaten m).size = m.size := by
  simp [beaten, FitnessMatrix.candidates]

/-- Everybody has a number of dominators. -/
@[simp]
theorem size_dominatorCounts (m : FitnessMatrix α) : (dominatorCounts m).size = m.size := by
  simp [dominatorCounts, FitnessMatrix.candidates]

/-- Whom a candidate dominates, looked up. -/
theorem getD_beaten (m : FitnessMatrix α) {i : Nat} (hi : i < m.size) :
    (beaten m).getD i [] = dominatedBy m i := by
  simp [beaten, FitnessMatrix.candidates, Array.getD_eq_getD_getElem?, hi]

/-- The number of dominators, looked up. -/
theorem getD_dominatorCounts (m : FitnessMatrix α) {j : Nat} (hj : j < m.size) :
    (dominatorCounts m).getD j 0 = dominatorCount m j := by
  simp [dominatorCounts, FitnessMatrix.candidates, Array.getD_eq_getD_getElem?, hj]

/-- A candidate is listed under each of its dominators. -/
theorem mem_dominatedBy {m : FitnessMatrix α} {i j : Nat} :
    j ∈ dominatedBy m i ↔ j < m.size ∧ dominates (m.row i) (m.row j) = true := by
  unfold dominatedBy FitnessMatrix.candidates
  rw [List.mem_filter, List.mem_range]

/-- A candidate is listed once among those a dominator of it dominates. -/
theorem count_dominatedBy (m : FitnessMatrix α) (i : Nat) {j : Nat} (hj : j < m.size) :
    (dominatedBy m i).count j = if dominates (m.row i) (m.row j) then 1 else 0 := by
  have hnodup : (dominatedBy m i).Nodup := List.Nodup.filter _ List.nodup_range
  by_cases h : dominates (m.row i) (m.row j) = true
  · rw [if_pos h]
    exact List.count_eq_one_of_mem hnodup (mem_dominatedBy.2 ⟨hj, h⟩)
  · rw [if_neg h]
    exact List.count_eq_zero.2 fun hmem => h (mem_dominatedBy.1 hmem).2

/-- Taking a front away lowers a candidate's counter once for each of its
dominators in the front. -/
theorem count_flatMap_beaten (m : FitnessMatrix α) {front : List Nat}
    (hfront : ∀ i ∈ front, i < m.size) {j : Nat} (hj : j < m.size) :
    (front.flatMap fun i => (beaten m).getD i []).count j
      = front.countP fun i => dominates (m.row i) (m.row j) := by
  induction front with
  | nil => rfl
  | cons i front ih =>
    rw [List.flatMap_cons, List.count_append, List.countP_cons,
      ih fun k hk => hfront k (List.mem_cons_of_mem i hk),
      getD_beaten m (hfront i List.mem_cons_self), count_dominatedBy m i hj, Nat.add_comm]

/-- Only candidates have their counter lowered. -/
theorem lt_of_mem_flatMap_beaten (m : FitnessMatrix α) {front : List Nat}
    (hfront : ∀ i ∈ front, i < m.size) {j : Nat}
    (hj : j ∈ front.flatMap fun i => (beaten m).getD i []) : j < m.size := by
  obtain ⟨i, hi, hmem⟩ := List.mem_flatMap.1 hj
  rw [getD_beaten m (hfront i hi)] at hmem
  exact (mem_dominatedBy.1 hmem).1

/-! ## The invariant -/

/-- **The state of the loop** before the candidates of `front` are taken away,
those in `done` having been taken away before. -/
structure Counting (m : FitnessMatrix α) (done : List Nat) (counts : Array Nat)
    (front : List Nat) : Prop where
  /-- No candidate is placed twice. -/
  nodup : (done ++ front).Nodup
  /-- The count of a candidate is the number of its dominators that have not
  been taken away. -/
  getD_counts : ∀ j < m.size, counts.getD j 0
    = (without done m.candidates).countP fun i => dominates (m.row i) (m.row j)
  /-- The candidates placed so far are those with count zero. -/
  mem_iff : ∀ j, j ∈ done ++ front ↔ j < m.size ∧ counts.getD j 0 = 0

namespace Counting

variable {m : FitnessMatrix α} {done front : List Nat} {counts : Array Nat}

/-- The loop starts with the candidates that nothing dominates. -/
theorem start (m : FitnessMatrix α) :
    Counting m [] (dominatorCounts m) (firstFront m (dominatorCounts m)) where
  nodup := List.Nodup.filter _ List.nodup_range
  getD_counts j hj := by
    rw [getD_dominatorCounts m hj]
    have hall : without [] m.candidates = m.candidates :=
      List.filter_eq_self.2 fun _ _ => rfl
    rw [hall]
    rfl
  mem_iff j := by
    rw [List.nil_append]
    unfold firstFront FitnessMatrix.candidates
    rw [List.mem_filter, List.mem_range, decide_eq_true_iff]

/-- **A front is the next layer**: count zero says that no dominator is left. -/
theorem isLayer (h : Counting m done counts front) :
    IsLayer m.Dominates m.size done front := by
  refine ⟨h.nodup.of_append_right, fun j => ?_⟩
  have hzero (hj : j < m.size) :
      counts.getD j 0 = 0 ↔ ∀ i, m.Dominates i j → i ∈ done := by
    rw [h.getD_counts j hj, List.countP_eq_zero]
    constructor
    · rintro hnone i ⟨hi, -, hij⟩
      by_contra hdone
      exact hnone i (List.mem_filter.2 ⟨List.mem_range.2 hi, by simpa using hdone⟩) hij
    · intro hall i hi hij
      obtain ⟨hrange, hnot⟩ := List.mem_filter.1 hi
      have hdone := hall i ⟨List.mem_range.1 hrange, hj, hij⟩
      simp [hdone] at hnot
  constructor
  · intro hj
    obtain ⟨hlt, hcount⟩ := (h.mem_iff j).1 (List.mem_append_right _ hj)
    refine ⟨hlt, fun hdone => ?_, (hzero hlt).1 hcount⟩
    exact (List.nodup_append'.1 h.nodup).2.2 hdone hj
  · rintro ⟨hlt, hnot, hall⟩
    have hmem := (h.mem_iff j).2 ⟨hlt, (hzero hlt).2 hall⟩
    exact (List.mem_append.1 hmem).resolve_left hnot

/-- Only candidates are placed. -/
theorem lt_size (h : Counting m done counts front) {i : Nat} (hi : i ∈ front) : i < m.size :=
  ((h.mem_iff i).1 (List.mem_append_right _ hi)).1

/-- The candidates not taken away so far are those of the front and those who
will be left. -/
theorem without_perm (h : Counting m done counts front) :
    (without done m.candidates).Perm (front ++ without (done ++ front) m.candidates) := by
  have hrange : m.candidates.Nodup := List.nodup_range
  refine (List.perm_ext_iff_of_nodup (hrange.filter _) ?_).2 fun i => ?_
  · refine List.nodup_append'.2 ⟨h.nodup.of_append_right, hrange.filter _, ?_⟩
    intro i hi hleft
    have := (List.mem_filter.1 hleft).2
    simp [hi] at this
  · have hdone : i ∈ front → i ∉ done := fun hi hdone =>
      (List.nodup_append'.1 h.nodup).2.2 hdone hi
    have hcand : i ∈ front → i ∈ m.candidates := fun hi => List.mem_range.2 (h.lt_size hi)
    simp only [without, List.mem_filter, List.mem_append, Bool.not_eq_true',
      List.contains_eq_mem, decide_eq_false_iff_not]
    tauto

/-- **The count of a candidate splits** into the dominators in the front and
those who will be left. -/
theorem getD_counts_eq_add (h : Counting m done counts front) {j : Nat} (hj : j < m.size) :
    counts.getD j 0 = (front.flatMap fun i => (beaten m).getD i []).count j
      + (without (done ++ front) m.candidates).countP
          fun i => dominates (m.row i) (m.row j) := by
  rw [h.getD_counts j hj, h.without_perm.countP_eq, List.countP_append,
    count_flatMap_beaten m (fun i hi => h.lt_size hi) hj]

/-- **No counter is lowered below zero** while a front is taken away. -/
theorem count_le (h : Counting m done counts front) (j : Nat) :
    (front.flatMap fun i => (beaten m).getD i []).count j ≤ counts.getD j 0 := by
  by_cases hj : j < m.size
  · rw [h.getD_counts_eq_add hj]
    exact Nat.le_add_right _ _
  · have hnot : j ∉ front.flatMap fun i => (beaten m).getD i [] := fun hmem =>
      hj (lt_of_mem_flatMap_beaten m (fun i hi => h.lt_size hi) hmem)
    rw [List.count_eq_zero.2 hnot]
    exact Nat.zero_le _

/-- **Taking a front away keeps the counts exact.** -/
theorem step (h : Counting m done counts front) :
    Counting m (done ++ front) (release (beaten m) counts front).counts
      (release (beaten m) counts front).released := by
  have hlt {i : Nat} (hi : i ∈ front) : i < m.size := h.lt_size hi
  refine ⟨?_, fun j hj => ?_, fun j => ?_⟩
  · refine List.nodup_append'.2
      ⟨h.nodup, nodup_released_foldl_lower _ _ h.count_le, ?_⟩
    intro j hplaced hreleased
    obtain ⟨hmem, -⟩ := (mem_released_foldl_lower _ _ j).1 hreleased
    have hcount := h.count_le j
    rw [((h.mem_iff j).1 hplaced).2] at hcount
    exact List.count_eq_zero.1 (Nat.le_zero.1 hcount) hmem
  · show ((front.flatMap _).foldl Release.lower ⟨counts, []⟩).counts.getD j 0 = _
    rw [getD_counts_foldl_lower]
    show counts.getD j 0 - _ = _
    rw [h.getD_counts_eq_add hj, Nat.add_sub_cancel_left]
  · show j ∈ _ ++ ((front.flatMap _).foldl Release.lower ⟨counts, []⟩).released
      ↔ _ ∧ ((front.flatMap _).foldl Release.lower ⟨counts, []⟩).counts.getD j 0 = 0
    rw [List.mem_append, h.mem_iff, mem_released_foldl_lower, getD_counts_foldl_lower,
      Nat.sub_eq_zero_iff_le]
    constructor
    · rintro (⟨hj, hzero⟩ | ⟨hmem, hle⟩)
      · exact ⟨hj, by rw [hzero]; exact Nat.zero_le _⟩
      · exact ⟨lt_of_mem_flatMap_beaten m (fun i hi => hlt hi) hmem, hle⟩
    · rintro ⟨hj, hle⟩
      rcases Nat.eq_zero_or_pos (counts.getD j 0) with hzero | hpos
      · exact Or.inl ⟨hj, hzero⟩
      · exact Or.inr ⟨List.count_pos_iff.1 (Nat.lt_of_lt_of_le hpos hle), hle⟩

/-- Once as many candidates are placed as there are, nobody is left. -/
theorem mem_of_size_le (h : Counting m done counts front)
    (hsize : m.size ≤ (done ++ front).length) {j : Nat} (hj : j < m.size) :
    j ∈ done ++ front := by
  have hsub : (done ++ front).Subperm (List.range m.size) :=
    List.subperm_of_subset h.nodup fun j hj => List.mem_range.2 ((h.mem_iff j).1 hj).1
  have hperm := hsub.perm_of_length_le (by rwa [List.length_range])
  exact hperm.mem_iff.2 (List.mem_range.2 hj)

/-- **The fronts that follow are the layers that follow**, given enough rounds
for everybody who is left. -/
theorem isLayered_following (h : Counting m done counts front) {fuel : Nat}
    (hfuel : m.size ≤ fuel + (done ++ front).length) :
    IsLayered m.Dominates m.size (done ++ front) (following (beaten m) fuel counts front) := by
  induction fuel generalizing done counts front with
  | zero =>
    rw [Nat.zero_add] at hfuel
    refine .nil ⟨List.nodup_nil, fun j => ?_⟩
    refine iff_of_false List.not_mem_nil fun hj => ?_
    exact hj.2.1 (h.mem_of_size_le hfuel hj.1)
  | succ fuel ih =>
    have hnext := h.step
    unfold following
    by_cases hnil : (release (beaten m) counts front).released = []
    · rw [if_pos (List.isEmpty_iff.2 hnil)]
      rw [hnil] at hnext
      exact .nil hnext.isLayer
    · rw [if_neg (mt List.isEmpty_iff.1 hnil)]
      refine .cons hnil hnext.isLayer (ih hnext ?_)
      have hpos := List.length_pos_iff.2 hnil
      rw [List.length_append]
      omega

end Counting

end Pairwise

end ParetoSelection
