import Mathlib.Data.List.GetD
import Mathlib.Data.List.Nodup
import Mathlib.Data.List.Perm.Subperm
import ParetoSelection.Fronts.Basic
import ParetoSelection.Proofs.StableSort

/-!
# Fronts that contain every candidate once

A ranking is only of use if it loses nobody. `RankedFronts.IsPartition` says
what that means: no front is empty, every candidate lies in exactly one of
them, and in the one at its rank. The property asks for nothing else, so it is
the same for every algorithm that ranks a population.

Since the rank of a candidate is *read off* the fronts, it is the position of
any front the candidate lies in (`rank_eq_of_mem`) – provided no candidate is
listed twice. Putting every front in ascending order, which is the last thing
done to any ranking, changes neither a rank nor whether the fronts are a
partition.
-/

namespace ParetoSelection

/-- What is listed no more often than in a list without repetition is not
repeated either. -/
theorem nodup_of_subperm {xs ys : List Nat} (h : xs.Subperm ys) (hys : ys.Nodup) : xs.Nodup := by
  obtain ⟨kept, hperm, hsublist⟩ := h
  exact hperm.nodup_iff.1 (hys.sublist hsublist)

/-- Where a front has a member there is a front. -/
theorem lt_length_of_mem_getD {fronts : List (List Nat)} {i k : Nat}
    (h : i ∈ fronts.getD k []) : k < fronts.length := by
  by_contra hk
  rw [List.getD_eq_default _ _ (Nat.le_of_not_lt hk)] at h
  exact List.not_mem_nil h

/-- What is at a place of a list is in the list. -/
theorem getD_mem {xs : List Nat} {k : Nat} (h : k < xs.length) : xs.getD k 0 ∈ xs := by
  rw [List.getD_eq_getElem _ _ h]
  exact List.getElem_mem h

/-- A list is what is at its places, one after the other. -/
theorem map_getD_range {β : Type} (xs : List β) (d : β) :
    ((List.range xs.length).map fun k => xs.getD k d) = xs := by
  refine List.ext_getElem (by rw [List.length_map, List.length_range]) fun k hk hk' => ?_
  rw [List.getElem_map, List.getElem_range, List.getD_eq_getElem _ _ hk']

namespace RankedFronts

/-- There is a rank for every candidate. -/
theorem length_ranks (r : RankedFronts) : r.ranks.length = r.size := by
  rw [ranks, List.length_map, List.length_range]

/-- The list of ranks has the rank of each candidate at its position. -/
theorem getD_ranks (r : RankedFronts) {i : Nat} (hi : i < r.size) :
    r.ranks.getD i 0 = r.rank i := by
  rw [List.getD_eq_getElem _ _ (r.length_ranks.symm ▸ hi)]
  simp only [ranks, List.getElem_map, List.getElem_range]

/-- **Every candidate lies in exactly one front**, the one at its rank, and no
front is empty. -/
structure IsPartition (r : RankedFronts) : Prop where
  /-- No front is empty. -/
  front_ne_nil : ∀ front ∈ r.fronts, front ≠ []
  /-- No candidate is listed twice, neither in one front nor in two. -/
  nodup : r.ordered.Nodup
  /-- The fronts together contain all candidates and nothing else. -/
  mem_ordered : ∀ i, i ∈ r.ordered ↔ i < r.size
  /-- A candidate lies in the front at its rank. -/
  mem_front : ∀ i < r.size, i ∈ r.fronts.getD (r.rank i) []

/-! ## The rank is the position of the front -/

/-- A candidate of some front lies in the front at its rank. -/
theorem mem_front_rank {r : RankedFronts} {i : Nat} (h : i ∈ r.ordered) :
    i ∈ r.fronts.getD (r.rank i) [] := by
  obtain ⟨front, hfront, hi⟩ := List.mem_flatten.1 h
  obtain ⟨k, hk⟩ : ∃ k, r.fronts.findIdx? (·.contains i) = some k :=
    Option.isSome_iff_exists.1 (List.findIdx?_isSome.trans
      (List.any_eq_true.2 ⟨front, hfront, List.contains_iff_mem.2 hi⟩))
  obtain ⟨hlt, hki, -⟩ := List.findIdx?_eq_some_iff_getElem.1 hk
  have hrank : r.rank i = k := by rw [rank, hk]; rfl
  rw [hrank, List.getD_eq_getElem _ _ hlt]
  exact List.contains_iff_mem.1 hki

/-- **A candidate's rank is the position of any front it lies in**, as long as
no candidate is listed twice. -/
theorem rank_eq_of_mem {r : RankedFronts} (hr : r.ordered.Nodup) {i k : Nat}
    (h : i ∈ r.fronts.getD k []) : r.rank i = k := by
  have hk : k < r.fronts.length := lt_length_of_mem_getD h
  rw [List.getD_eq_getElem _ _ hk] at h
  have hmem := mem_front_rank (List.mem_flatten_of_mem (List.getElem_mem hk) h)
  have hrank : r.rank i < r.fronts.length := lt_length_of_mem_getD hmem
  rw [List.getD_eq_getElem _ _ hrank] at hmem
  have hdisj := List.pairwise_iff_getElem.1 (List.nodup_flatten.1 hr).2
  rcases Nat.lt_trichotomy (r.rank i) k with hlt | heq | hgt
  · exact absurd h (List.disjoint_left.1 (hdisj _ _ hrank hk hlt) hmem)
  · exact heq
  · exact absurd hmem (List.disjoint_left.1 (hdisj _ _ hk hrank hgt) h)

/-- A ranking that lists every candidate once is a partition as soon as no
front is empty. -/
theorem IsPartition.of_perm {r : RankedFronts} (hne : ∀ front ∈ r.fronts, front ≠ [])
    (h : r.ordered.Perm (List.range r.size)) : r.IsPartition where
  front_ne_nil := hne
  nodup := h.nodup_iff.2 List.nodup_range
  mem_ordered _ := h.mem_iff.trans List.mem_range
  mem_front _ hi := mem_front_rank (h.mem_iff.2 (List.mem_range.2 hi))

/-- The members of a front are candidates. -/
theorem IsPartition.lt_size {r : RankedFronts} (h : r.IsPartition) {front : List Nat}
    (hfront : front ∈ r.fronts) {i : Nat} (hi : i ∈ front) : i < r.size :=
  (h.mem_ordered i).1 (List.mem_flatten_of_mem hfront hi)

/-- A front is who has its position as rank. -/
theorem IsPartition.mem_front_iff {r : RankedFronts} (h : r.IsPartition) {i k : Nat} :
    i ∈ r.fronts.getD k [] ↔ i < r.size ∧ r.rank i = k := by
  constructor
  · intro hi
    have hk := lt_length_of_mem_getD hi
    refine ⟨?_, rank_eq_of_mem h.nodup hi⟩
    rw [List.getD_eq_getElem _ _ hk] at hi
    exact h.lt_size (List.getElem_mem hk) hi
  · rintro ⟨hi, rfl⟩
    exact h.mem_front i hi

/-- There is a front at a position exactly if somebody has that rank. -/
theorem IsPartition.lt_length_iff {r : RankedFronts} (h : r.IsPartition) {k : Nat} :
    k < r.fronts.length ↔ ∃ i < r.size, r.rank i = k := by
  constructor
  · intro hk
    obtain ⟨i, hi⟩ := List.exists_mem_of_ne_nil _ (h.front_ne_nil _ (List.getElem_mem hk))
    rw [← List.getD_eq_getElem _ [] hk] at hi
    exact ⟨i, h.mem_front_iff.1 hi⟩
  · rintro ⟨i, hi⟩
    exact lt_length_of_mem_getD (h.mem_front_iff.2 hi)

/-- A partition lists every candidate once. -/
theorem IsPartition.ordered_perm {r : RankedFronts} (h : r.IsPartition) :
    r.ordered.Perm (List.range r.size) :=
  (List.perm_ext_iff_of_nodup h.nodup List.nodup_range).2
    (fun i => (h.mem_ordered i).trans List.mem_range.symm)

/-- A partition lists as many candidates as there are. -/
theorem IsPartition.length_ordered {r : RankedFronts} (h : r.IsPartition) :
    r.ordered.length = r.size := by
  rw [h.ordered_perm.length_eq, List.length_range]

/-! ## Putting each front in order -/

/-- Putting fronts in ascending order rearranges each of them. -/
theorem forall₂_perm_ascending (fronts : List (List Nat)) :
    List.Forall₂ List.Perm (fronts.map (stableSort fun i j => i ≤ j)) fronts := by
  induction fronts with
  | nil => exact List.Forall₂.nil
  | cons front fronts ih => exact List.Forall₂.cons (stableSort_perm _ front) ih

/-- Rearranging each front rearranges what the fronts list. -/
theorem flatten_perm_of_forall₂ {fronts fronts' : List (List Nat)}
    (h : List.Forall₂ List.Perm fronts fronts') : fronts.flatten.Perm fronts'.flatten := by
  induction h with
  | nil => exact List.Perm.refl _
  | cons hfront _ ih =>
    rw [List.flatten_cons, List.flatten_cons]
    exact hfront.append ih

/-- Putting the fronts in order lists the same candidates. -/
theorem ordered_ascending_perm (r : RankedFronts) : r.ascending.ordered.Perm r.ordered :=
  flatten_perm_of_forall₂ (forall₂_perm_ascending r.fronts)

/-- **Putting the fronts in order keeps every rank.** -/
theorem rank_ascending (r : RankedFronts) (i : Nat) : r.ascending.rank i = r.rank i := by
  show ((r.fronts.map (stableSort fun i j => i ≤ j)).findIdx? (·.contains i)).getD 0 = _
  rw [List.findIdx?_map]
  have hcontains : ((fun front : List Nat => front.contains i) ∘ stableSort fun i j => i ≤ j)
      = fun front => front.contains i := by
    funext front
    rw [Function.comp_apply, Bool.eq_iff_iff, List.contains_iff_mem, List.contains_iff_mem]
    exact (stableSort_perm _ front).mem_iff
  rw [hcontains]
  rfl

/-- **Putting the fronts in order changes nothing about a partition.** -/
theorem isPartition_ascending {r : RankedFronts} : r.ascending.IsPartition ↔ r.IsPartition := by
  have hperm := ordered_ascending_perm r
  have hnil : (∀ front ∈ r.ascending.fronts, front ≠ []) ↔ ∀ front ∈ r.fronts, front ≠ [] := by
    show (∀ front ∈ r.fronts.map _, front ≠ []) ↔ _
    rw [List.forall_mem_map]
    refine forall₂_congr fun front _ => not_congr ?_
    rw [← List.length_eq_zero_iff, (stableSort_perm _ front).length_eq, List.length_eq_zero_iff]
  constructor
  · intro h
    exact .of_perm (hnil.1 h.front_ne_nil) (hperm.symm.trans h.ordered_perm)
  · intro h
    exact .of_perm (hnil.2 h.front_ne_nil) (hperm.trans h.ordered_perm)

/-- Every front is in ascending order once it has been put in order. -/
theorem pairwise_lt_ascending {r : RankedFronts} (h : r.ordered.Nodup) {front : List Nat}
    (hfront : front ∈ r.ascending.fronts) : front.Pairwise (· < ·) := by
  obtain ⟨front, hmem, rfl⟩ := List.mem_map.1 hfront
  have hnodup : (stableSort (fun i j => i ≤ j) front).Nodup :=
    (stableSort_perm _ front).nodup_iff.2 ((List.nodup_flatten.1 h).1 front hmem)
  refine ((pairwise_le_stableSort front).and hnodup).imp fun {i j} hij => ?_
  exact Nat.lt_of_le_of_ne hij.1 hij.2

end RankedFronts

end ParetoSelection
