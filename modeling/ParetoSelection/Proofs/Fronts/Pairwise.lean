import ParetoSelection.Fronts.Strategy
import ParetoSelection.Proofs.Binary64.Reading
import ParetoSelection.Proofs.Fronts.Counting

/-!
# Who is ranked by counting dominators

Counting dominators finds the layers of dominance, and the layers contain
everybody exactly where dominance has no cycle. So a ranking by counting is a
partition of the candidates for those matrices and for no other
(`isPartition_iff_isAcyclic`), and there it is the canonical ranking
(`isCanonical_of_isAcyclic`), whether or not dominance is transitive.

Equality up to a tolerance is not transitive, and three finite rows of three
objectives suffice for a cycle: each is better than the next in one objective
by more than the tolerance, and worse in two by less (`nearTies`). All three
are lost, and keep the rank zero of a candidate in no front.
-/

namespace ParetoSelection

open Relation

variable {α : Type} [Scalar α]

open ParetoSelection.Pairwise

/-- **Counting finds the layers of dominance** – or, where everybody has a
dominator from the start, one empty front in place of none. -/
theorem isLayered_pairwiseFronts (m : FitnessMatrix α) :
    IsLayered m.Dominates m.size [] m.pairwiseFronts.fronts
      ∨ 0 < m.size ∧ m.pairwiseFronts.fronts = [[]] ∧ IsLayered m.Dominates m.size [] [] := by
  rcases Nat.eq_zero_or_pos m.size with hsize | hsize
  · rw [pairwiseFronts_of_size_eq_zero hsize]
    refine .inl (.nil ⟨List.nodup_nil, fun j => iff_of_false List.not_mem_nil ?_⟩)
    rintro ⟨hj, -⟩
    exact Nat.not_lt_zero j (hsize ▸ hj)
  · have hstart := Counting.start m
    have hfollow := hstart.isLayered_following (Nat.le_add_right m.size _)
    rw [pairwiseFronts_eq hsize]
    by_cases hnil : firstFront m (dominatorCounts m) = []
    · right
      have hempty := hstart.isLayer
      rw [hnil] at hempty hstart hfollow
      rw [hnil]
      refine ⟨hsize, ?_, .nil hempty⟩
      show [] :: following (beaten m) m.size (dominatorCounts m) [] = [[]]
      rw [← Nat.succ_pred_eq_of_pos hsize]
      rfl
    · exact .inl (.cons hnil hstart.isLayer hfollow)

/-- **Nobody is ranked twice, and lost is who lies on or behind a cycle.** -/
theorem mem_ordered_pairwiseFronts (m : FitnessMatrix α) :
    m.pairwiseFronts.ordered.Nodup ∧ ∀ j, j ∈ m.pairwiseFronts.ordered
      ↔ j < m.size ∧ ¬ ∃ c, TransGen m.Dominates c c ∧ ReflTransGen m.Dominates c j := by
  have hD : ∀ i j, m.Dominates i j → i < m.size := fun i j h => h.1
  unfold RankedFronts.ordered
  rcases isLayered_pairwiseFronts m with h | ⟨-, hfronts, h⟩
  · exact ⟨h.nodup List.nodup_nil, fun j => h.mem_flatten_iff_not_behind_cycle hD⟩
  · rw [hfronts]
    exact ⟨h.nodup List.nodup_nil, fun j => h.mem_flatten_iff_not_behind_cycle hD⟩

/-- **Without a cycle the layers are all there is**, and counting finds them. -/
theorem isLayered_pairwiseFronts_of_isAcyclic {m : FitnessMatrix α} (h : m.IsAcyclic) :
    IsLayered m.Dominates m.size [] m.pairwiseFronts.fronts := by
  rcases isLayered_pairwiseFronts m with hlayered | ⟨hsize, -, hnone⟩
  · exact hlayered
  · have hall := (hnone.forall_mem_flatten_iff_acyclic FitnessMatrix.Dominates.lt_size).2 h
    exact absurd (hall 0 hsize) List.not_mem_nil

/-- **Without a cycle the ranking is canonical**: nobody is lost, dominators have
smaller ranks, and the rank is the length of the longest chain of dominators. -/
theorem isCanonical_of_isAcyclic {m : FitnessMatrix α} (h : m.IsAcyclic) :
    m.pairwiseFronts.IsCanonical m.Dominates := by
  have hlayered := isLayered_pairwiseFronts_of_isAcyclic h
  rw [← size_pairwiseFronts m] at hlayered
  refine hlayered.isCanonical (fun i j hij => ?_) h
  rw [size_pairwiseFronts]
  exact FitnessMatrix.Dominates.lt_size i j hij

/-- **Counting dominators loses nobody exactly where dominance has no cycle**,
and neither does the strategy that ranks by counting. Lost is who lies on or
behind a cycle, and whoever is lost has rank zero. -/
theorem isPartition_iff_isAcyclic (m : FitnessMatrix α) :
    (m.pairwiseFronts.IsPartition ↔ m.IsAcyclic)
      ∧ ((m.rankWith .pairwise).IsPartition ↔ m.IsAcyclic)
      ∧ m.pairwiseFronts.ordered.Nodup
      ∧ ∀ j < m.size,
        (j ∈ m.pairwiseFronts.ordered
          ↔ ¬ ∃ c, TransGen m.Dominates c c ∧ ReflTransGen m.Dominates c j)
        ∧ (j ∉ m.pairwiseFronts.ordered →
            m.pairwiseFronts.rank j = 0 ∧ (m.rankWith .pairwise).rank j = 0) := by
  have hmain : m.pairwiseFronts.IsPartition ↔ m.IsAcyclic := by
    constructor
    · intro h
      rcases isLayered_pairwiseFronts m with hlayered | ⟨-, hfronts, -⟩
      · refine (hlayered.forall_mem_flatten_iff_acyclic FitnessMatrix.Dominates.lt_size).1 ?_
        intro j hj
        exact (h.mem_ordered j).2 (by rwa [size_pairwiseFronts])
      · exact absurd rfl (h.front_ne_nil [] (by rw [hfronts]; exact List.mem_singleton_self _))
    · exact fun h => (isCanonical_of_isAcyclic h).isPartition
  obtain ⟨hnodup, hmem⟩ := mem_ordered_pairwiseFronts m
  refine ⟨hmain, RankedFronts.isPartition_ascending.trans hmain, hnodup, fun j hj => ⟨?_, ?_⟩⟩
  · rw [hmem j]
    exact and_iff_right hj
  · intro hlost
    have hnone : m.pairwiseFronts.fronts.findIdx? (·.contains j) = none := by
      rw [List.findIdx?_eq_none_iff]
      intro front hfront
      rw [Bool.eq_false_iff, ne_eq, List.contains_iff_mem]
      exact fun hmem => hlost (List.mem_flatten_of_mem hfront hmem)
    have hrank : m.pairwiseFronts.rank j = 0 := by
      rw [RankedFronts.rank, hnone]
      rfl
    exact ⟨hrank, (RankedFronts.rank_ascending _ j).trans hrank⟩

/-- **Three rows in a circle.** Values are about `1`, and the steps between
them are `0.7` times the tolerance: one step is a tie, two steps are not. -/
def nearTies : FitnessMatrix Binary64 :=
  let low : Binary64 := ⟨4607182418800017408⟩
  let middle : Binary64 := ⟨4607182418800332660⟩
  let high : Binary64 := ⟨4607182418800647912⟩
  #[[high, middle, low], [low, high, middle], [middle, low, high]]

/-- **Finite rows of equal length can be lost**: counting dominators puts none
of the three rows into a front. -/
theorem nearTies_lost :
    (∀ row ∈ nearTies, row.length = 3 ∧ ∀ x ∈ row, x.IsFinite)
      ∧ nearTies.pairwiseFronts = ⟨3, [[]]⟩
      ∧ nearTies.rankWith .pairwise = ⟨3, [[]]⟩
      ∧ ¬ nearTies.pairwiseFronts.IsPartition
      ∧ ¬ (nearTies.rankWith .pairwise).IsPartition := by
  have hfronts : nearTies.pairwiseFronts = ⟨3, [[]]⟩ := by decide +kernel
  have hrank : nearTies.rankWith .pairwise = ⟨3, [[]]⟩ := by decide +kernel
  refine ⟨by decide +kernel, hfronts, hrank, ?_, ?_⟩
  · intro h
    exact h.front_ne_nil [] (by rw [hfronts]; exact List.mem_singleton_self _) rfl
  · intro h
    exact h.front_ne_nil [] (by rw [hrank]; exact List.mem_singleton_self _) rfl

end ParetoSelection
