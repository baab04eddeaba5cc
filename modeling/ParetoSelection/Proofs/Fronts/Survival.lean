import ParetoSelection.Proofs.Fronts.Agreement
import ParetoSelection.Proofs.Fronts.Cut

/-!
# Survivors keep their ranks

A population that has been ranked is cut down to its survivors. Ranking the
survivors anew gives every one of them the rank it had: nobody can have lost a
dominator, for a dominator has a smaller rank, and whoever has a smaller rank than a
survivor survives as well (`ranks_pick_eq`). Where in a front the cut lies, and who
is taken of that front, does not matter.

What makes the comparison of two rankings possible is that a rank is determined by
dominance alone. `IsRanking` says that dominators have smaller ranks and that no rank
is larger than that requires, and two such rankings are the same (`IsRanking.eq_rank`).
-/

namespace ParetoSelection

open Relation

/-! ## Rankings of a relation of dominance -/

variable {D : Nat → Nat → Prop} {n : Nat}

/-- **A ranking of candidates below `n`**: a dominator has a smaller rank, and every
rank but zero has a dominator of the rank before. -/
structure IsRanking (D : Nat → Nat → Prop) (n : Nat) (rank : Nat → Nat) : Prop where
  /-- A dominator has a smaller rank. -/
  rank_lt : ∀ i < n, ∀ j < n, D i j → rank i < rank j
  /-- Whoever does not have rank zero is dominated by somebody of the rank before. -/
  exists_dominator : ∀ j < n, ∀ k, rank j = k + 1 → ∃ i < n, D i j ∧ rank i = k

namespace IsRanking

variable {rank rank' : Nat → Nat}

/-- **There is only one ranking.** -/
theorem eq_rank (h : IsRanking D n rank) (h' : IsRanking D n rank') {j : Nat} (hj : j < n) :
    rank j = rank' j := by
  -- by induction on the rank: what holds of all dominators decides about a candidate
  generalize hk : rank j = k
  induction k using Nat.strong_induction_on generalizing j with
  | _ k ih =>
    subst hk
    apply Nat.le_antisymm
    · cases hrank : rank j with
      | zero => exact Nat.zero_le _
      | succ k =>
        obtain ⟨i, hi, hij, hki⟩ := h.exists_dominator j hj k hrank
        have heq := ih (rank i) (h.rank_lt i hi j hj hij) hi rfl
        rw [hki] at heq
        rw [heq]
        exact h'.rank_lt i hi j hj hij
    · cases hrank : rank' j with
      | zero => exact Nat.zero_le _
      | succ k =>
        obtain ⟨i, hi, hij, hki⟩ := h'.exists_dominator j hj k hrank
        have hlt := h.rank_lt i hi j hj hij
        rw [← hki, ← ih (rank i) hlt hi rfl]
        exact hlt

/-- **Rank zero is for those that nobody dominates.** -/
theorem rank_eq_zero_iff (h : IsRanking D n rank) {j : Nat} (hj : j < n) :
    rank j = 0 ↔ ∀ i < n, ¬ D i j := by
  constructor
  · intro hzero i hi hij
    have hlt := h.rank_lt i hi j hj hij
    rw [hzero] at hlt
    exact Nat.not_lt_zero _ hlt
  · intro hnone
    cases hrank : rank j with
    | zero => rfl
    | succ k =>
      obtain ⟨i, hi, hij, -⟩ := h.exists_dominator j hj k hrank
      exact absurd hij (hnone i hi)

/-- **A ranking of some candidates by those among them**, if they include every
candidate of a smaller rank than one of them. -/
theorem of_getD {kept : List Nat} (h : IsRanking D n rank) (hlt : ∀ i ∈ kept, i < n)
    (hdown : ∀ j ∈ kept, ∀ i < n, rank i < rank j → i ∈ kept) :
    IsRanking (fun k l => D (kept.getD k 0) (kept.getD l 0)) kept.length
      fun k => rank (kept.getD k 0) := by
  refine ⟨fun k hk l hl hkl => ?_, fun l hl r hr => ?_⟩
  · exact h.rank_lt _ (hlt _ (getD_mem hk)) _ (hlt _ (getD_mem hl)) hkl
  · obtain ⟨i, hi, hil, hri⟩ := h.exists_dominator _ (hlt _ (getD_mem hl)) r hr
    have hkept : i ∈ kept := hdown _ (getD_mem hl) i hi (by rw [hri, hr]; exact Nat.lt_succ_self r)
    obtain ⟨k, hk, rfl⟩ := List.mem_iff_getElem.1 hkept
    refine ⟨k, hk, ?_, ?_⟩
    · rwa [List.getD_eq_getElem _ _ hk]
    · rwa [List.getD_eq_getElem _ _ hk]

/-- What dominates whom need only be known among the candidates. -/
theorem congr {D' : Nat → Nat → Prop} (h : IsRanking D n rank)
    (hD : ∀ i < n, ∀ j < n, D i j ↔ D' i j) : IsRanking D' n rank where
  rank_lt i hi j hj hij := h.rank_lt i hi j hj ((hD i hi j hj).2 hij)
  exists_dominator j hj k hk := by
    obtain ⟨i, hi, hij, hrank⟩ := h.exists_dominator j hj k hk
    exact ⟨i, hi, (hD i hi j hj).1 hij, hrank⟩

end IsRanking

/-- The ranks of a canonical ranking are a ranking, and putting the fronts in order
keeps them. -/
theorem RankedFronts.IsCanonical.isRanking {r : RankedFronts} (h : r.IsCanonical D) :
    IsRanking D r.size r.ascending.rank where
  rank_lt i _ j _ hij := by
    rw [rank_ascending, rank_ascending]
    exact h.rank_lt i j hij
  exists_dominator j hj k hk := by
    rw [rank_ascending] at hk
    obtain ⟨i, hi, hij⟩ := h.exists_dominator j hj k hk
    obtain ⟨hi, hrank⟩ := h.isPartition.mem_front_iff.1 hi
    exact ⟨i, hi, hij, (rank_ascending r i).trans hrank⟩

namespace FitnessMatrix

variable {α : Type} [Scalar α] {m : FitnessMatrix α}

/-! ## Matrices that are ranked by dominance -/

/-- **A matrix that a strategy ranks by dominance alone**: counting dominators does so
where dominance has no cycle, and every strategy where values are compared by
grades. -/
def IsRankedBy (grade : α → Int) (m : FitnessMatrix α) (strategy : Strategy) : Prop :=
  strategy = .pairwise ∧ m.IsAcyclic ∨ m.IsGraded grade

/-- **The ranks are the ranking by dominance**, and everybody has one. -/
theorem IsRankedBy.isRanking {grade : α → Int} {strategy : Strategy}
    (h : m.IsRankedBy grade strategy) :
    (m.rankWith strategy).IsPartition
      ∧ IsRanking m.Dominates m.size (m.rankWith strategy).rank := by
  have hcanonical : ∃ r : RankedFronts, m.rankWith strategy = r.ascending ∧ r.size = m.size
      ∧ r.IsCanonical m.Dominates := by
    obtain ⟨rfl, hacyclic⟩ | hgraded := h
    · exact ⟨m.pairwiseFronts, rfl, Pairwise.size_pairwiseFronts m,
        isCanonical_of_isAcyclic hacyclic⟩
    · obtain ⟨r, hr, hsize, hlayered⟩ := hgraded.exists_isLayered strategy
      rw [← hsize] at hlayered
      refine ⟨r, hr, hsize, hlayered.isCanonical (fun i j hij => ?_) hgraded.isAcyclic⟩
      rw [hsize]
      exact Dominates.lt_size i j hij
  obtain ⟨r, hr, hsize, hcanonical⟩ := hcanonical
  rw [hr, ← hsize]
  exact ⟨RankedFronts.isPartition_ascending.2 hcanonical.isPartition, hcanonical.isRanking⟩

/-- **Rank zero is for those that no other candidate dominates**, each listed once and
in order. -/
theorem IsRankedBy.mem_filter_ranks_iff {grade : α → Int} {strategy : Strategy}
    (h : m.IsRankedBy grade strategy) (j : Nat) :
    j ∈ ((List.range (m.rankWith strategy).ranks.length).filter fun i =>
        (m.rankWith strategy).ranks.getD i 0 = 0)
      ↔ j < m.size ∧ ∀ i < m.size, i ≠ j → dominates (m.row i) (m.row j) = false := by
  have hranking := h.isRanking.2
  rw [List.mem_filter, List.mem_range, decide_eq_true_iff, RankedFronts.length_ranks,
    size_rankWith]
  refine and_congr_right fun hj => ?_
  rw [RankedFronts.getD_ranks _ (by rwa [size_rankWith]), hranking.rank_eq_zero_iff hj]
  refine forall₂_congr fun i hi => ?_
  rw [← Bool.not_eq_true]
  constructor
  · exact fun hnot _ hdom => hnot ⟨hi, hj, hdom⟩
  · rintro hother hdom
    by_cases hij : i = j
    · subst hij
      exact Nat.lt_irrefl _ (hranking.rank_lt i hi i hi hdom)
    · exact hother hij hdom.2.2

/-! ## The rows of some candidates -/

variable {kept : List Nat}

omit [Scalar α] in
/-- As many rows are picked as there are candidates. -/
@[simp]
theorem size_pick (m : FitnessMatrix α) (kept : List Nat) : (m.pick kept).size = kept.length := by
  rw [pick, List.size_toArray, List.length_map]

omit [Scalar α] in
/-- A row that is picked is the row of its candidate. -/
theorem row_pick {k : Nat} (hk : k < kept.length) :
    (m.pick kept).row k = m.row (kept.getD k 0) := by
  rw [row, pick, Array.getD_eq_getD_getElem?, List.getElem?_toArray, List.getElem?_map,
    List.getElem?_eq_getElem hk, List.getD_eq_getElem _ _ hk]
  rfl

/-- **Dominance among picked rows** is dominance among their candidates. -/
theorem dominates_pick_iff (hlt : ∀ i ∈ kept, i < m.size) {k l : Nat} (hk : k < kept.length)
    (hl : l < kept.length) :
    (m.pick kept).Dominates k l ↔ m.Dominates (kept.getD k 0) (kept.getD l 0) := by
  have hsize {k : Nat} (hk : k < kept.length) : kept.getD k 0 < m.size := hlt _ (getD_mem hk)
  unfold Dominates
  rw [size_pick, row_pick hk, row_pick hl]
  exact ⟨fun h => ⟨hsize hk, hsize hl, h.2.2⟩, fun h => ⟨hk, hl, h.2.2⟩⟩

/-- Picking rows makes no cycle. -/
theorem IsAcyclic.pick (h : m.IsAcyclic) (hlt : ∀ i ∈ kept, i < m.size) :
    (m.pick kept).IsAcyclic := by
  intro k hcycle
  refine h (kept.getD k 0) (TransGen.lift (fun k => kept.getD k 0) (fun k l hkl => ?_) k k hcycle)
  have hsize := Dominates.lt_size k l hkl
  rw [size_pick] at hsize
  exact (dominates_pick_iff hlt hsize.1 hsize.2).1 hkl

/-- Picked rows are compared by grades if all rows are. -/
theorem IsGraded.pick {grade : α → Int} (h : m.IsGraded grade) (hlt : ∀ i ∈ kept, i < m.size) :
    (m.pick kept).IsGraded grade := by
  have hrow {k : Nat} (hk : k < (m.pick kept).size) :
      kept.getD k 0 < m.size ∧ (m.pick kept).row k = m.row (kept.getD k 0) := by
    rw [size_pick] at hk
    exact ⟨hlt _ (getD_mem hk), row_pick hk⟩
  refine ⟨fun k hk l hl => ?_, fun k hk => ?_, fun k hk => ?_, fun k hk => ?_⟩
  · rw [(hrow hk).2, (hrow hl).2]
    exact h.rows _ (hrow hk).1 _ (hrow hl).1
  · rw [(hrow hk).2]
    exact h.row_ne_nil _ (hrow hk).1
  · rw [(hrow hk).2]
    exact h.bne_self _ (hrow hk).1
  · rw [(hrow hk).2]
    exact h.negInfinity_lt _ (hrow hk).1

/-- Whoever is left can be ranked by dominance if everybody could. -/
theorem IsRankedBy.pick {grade : α → Int} {strategy : Strategy} (h : m.IsRankedBy grade strategy)
    (hlt : ∀ i ∈ kept, i < m.size) : (m.pick kept).IsRankedBy grade strategy := by
  obtain ⟨hstrategy, hacyclic⟩ | hgraded := h
  · exact .inl ⟨hstrategy, hacyclic.pick hlt⟩
  · exact .inr (hgraded.pick hlt)

/-- **Survivors keep their ranks.** Ranking the rows of the survivors alone gives
every one of them the rank that it had among all candidates. -/
theorem ranks_pick_eq {grade : α → Int} {strategy : Strategy} (h : m.IsRankedBy grade strategy)
    {target : Nat} (hkept : (m.rankWith strategy).IsSurvivorChoice target kept) :
    ((m.pick kept).rankWith strategy).ranks = kept.map (m.rankWith strategy).rank := by
  have hlt : ∀ i ∈ kept, i < m.size := fun i hi => by
    have hi := hkept.lt_size i hi
    rwa [size_rankWith] at hi
  -- who has a smaller rank than a survivor has not been left out
  have hdown : ∀ j ∈ kept, ∀ i < m.size,
      (m.rankWith strategy).rank i < (m.rankWith strategy).rank j → i ∈ kept := by
    intro j hj i hi hrank
    by_contra hnot
    have hle := hkept.rank_le j hj i (by rwa [size_rankWith]) hnot
    exact absurd hrank (Nat.not_lt_of_le hle)
  have hbefore := (h.isRanking.2.of_getD hlt hdown).congr
    fun k hk l hl => (dominates_pick_iff hlt hk hl).symm
  have hafter := (h.pick hlt).isRanking.2
  rw [size_pick] at hafter
  unfold RankedFronts.ranks
  rw [size_rankWith, size_pick]
  refine List.ext_getElem (by rw [List.length_map, List.length_map, List.length_range]) ?_
  intro k hk hk'
  rw [List.length_map] at hk'
  rw [List.getElem_map, List.getElem_map, List.getElem_range, hafter.eq_rank hbefore hk',
    List.getD_eq_getElem _ _ hk']

end FitnessMatrix

end ParetoSelection
