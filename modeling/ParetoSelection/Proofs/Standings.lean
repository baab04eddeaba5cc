import Mathlib.Data.List.Induction
import ParetoSelection.Nsga2
import ParetoSelection.Proofs.Crowding.Passes
import ParetoSelection.Proofs.Fronts.Partition

/-!
# What a candidate is judged by

Crowding distances are computed front by front, in the order of each front, and written into
one table of all candidates. A candidate that is listed once has its place in the table to
itself, so what is read there is what has been computed for it: the distance at its place in
the front whose position is its rank (`Standing.isOf_getD_table`). Candidates may be missing
from the fronts. The others are judged all the same.
-/

namespace ParetoSelection

variable {α : Type} [Scalar α]

/-- Writing into a table does not change its size. -/
theorem size_foldl_setIfInBounds {β : Type} (entries : List (Nat × β)) (table : Array β) :
    (entries.foldl (fun table (i, x) => table.setIfInBounds i x) table).size = table.size := by
  induction entries generalizing table with
  | nil => rfl
  | cons entry entries ih => exact (ih _).trans Array.size_setIfInBounds

/-- **An entry is read where it was written**, if nothing else was written there. -/
theorem getD_foldl_setIfInBounds {β : Type} {entries : List (Nat × β)} {table : Array β} {i : Nat}
    {x : β} (hnodup : (entries.map Prod.fst).Nodup) (hi : i < table.size)
    (hentry : (i, x) ∈ entries) (d : β) :
    (entries.foldl (fun table (i, x) => table.setIfInBounds i x) table).getD i d = x := by
  induction entries using List.reverseRecOn with
  | nil => exact absurd hentry List.not_mem_nil
  | append_singleton entries last ih =>
    rw [List.map_append, List.map_singleton, List.nodup_append] at hnodup
    rw [List.foldl_concat, Array.getD_eq_getD_getElem?, Array.getElem?_setIfInBounds]
    obtain hentry | hlast := List.mem_append.1 hentry
    · have hne : i ≠ last.1 :=
        hnodup.2.2 i (List.mem_map_of_mem hentry) last.1 (List.mem_singleton_self _)
      rw [if_neg hne.symm, ← Array.getD_eq_getD_getElem?]
      exact ih hnodup.1 hentry
    · obtain rfl := List.mem_singleton.1 hlast
      rw [if_pos rfl, if_pos (by rwa [size_foldl_setIfInBounds]), Option.getD_some]

namespace Standing

variable {m : FitnessMatrix α} {ranked : RankedFronts}

/-- **What a candidate is to be judged by**: the position of a front that it is in, and the
crowding distance at its place in this front. -/
def IsOf (m : FitnessMatrix α) (ranked : RankedFronts) (i : Nat) (s : Standing α) : Prop :=
  ∃ j : Nat, (ranked.fronts.getD s.rank [])[j]? = some i
    ∧ (m.crowdingOf (ranked.fronts.getD s.rank []))[j]? = some s.crowding

/-- A candidate of a ranking is judged by its rank and by the distance in the table. -/
theorem getD_table (m : FitnessMatrix α) (ranked : RankedFronts) {i : Nat} (hi : i < ranked.size) :
    (table m ranked).getD i .lost = ⟨ranked.rank i, (crowdingTable m ranked).getD i 0⟩ := by
  unfold table RankedFronts.ranks
  rw [Array.getD_eq_getD_getElem?, List.getElem?_toArray, List.getElem?_mapIdx, List.getElem?_map,
    List.getElem?_range hi]
  rfl

/-- The entries of the table are for the candidates in the fronts, one for each time that a
candidate is listed. -/
theorem map_fst_crowdingTable_entries (m : FitnessMatrix α) (fronts : List (List Nat)) :
    (fronts.flatMap fun front => front.zip (m.crowdingOf front)).map Prod.fst
      = fronts.flatten := by
  rw [List.map_flatMap, ← List.flatMap_id]
  exact List.flatMap_congr fun front _ =>
    List.map_fst_zip (Nat.le_of_eq (m.length_crowdingOf front).symm)

/-- **The table has the distance of a member of a front** at its place in the front. -/
theorem getD_crowdingTable (hnodup : ranked.ordered.Nodup)
    (hlt : ∀ i ∈ ranked.ordered, i < ranked.size) {front : List Nat}
    (hfront : front ∈ ranked.fronts) {j : Nat} (hj : j < front.length) :
    (crowdingTable m ranked).getD front[j] 0 = (m.crowdingOf front).getD j 0 := by
  have hj' : j < (m.crowdingOf front).length := by rwa [FitnessMatrix.length_crowdingOf]
  have hmem : front[j] ∈ ranked.ordered := List.mem_flatten_of_mem hfront (List.getElem_mem hj)
  unfold crowdingTable
  refine getD_foldl_setIfInBounds ?_ ?_ (List.mem_flatMap.2 ⟨front, hfront, ?_⟩) 0
  · rwa [map_fst_crowdingTable_entries]
  · rw [Array.size_replicate]
    exact hlt _ hmem
  · have hzip : j < (front.zip (m.crowdingOf front)).length := by
      rw [List.length_zip]
      exact Nat.lt_min.2 ⟨hj, hj'⟩
    have hentry := List.getElem_mem hzip
    rwa [List.getElem_zip, ← List.getD_eq_getElem _ 0 hj'] at hentry

/-- **Every candidate in a front is judged by what it is to be judged by.** -/
theorem isOf_getD_table (hnodup : ranked.ordered.Nodup)
    (hlt : ∀ i ∈ ranked.ordered, i < ranked.size) {i : Nat} (hi : i ∈ ranked.ordered) :
    IsOf m ranked i ((table m ranked).getD i .lost) := by
  have hmem := RankedFronts.mem_front_rank hi
  have hfront : ranked.fronts.getD (ranked.rank i) [] ∈ ranked.fronts := by
    rw [List.getD_eq_getElem _ _ (lt_length_of_mem_getD hmem)]
    exact List.getElem_mem _
  obtain ⟨j, hj, heq⟩ := List.mem_iff_getElem.1 hmem
  have hj' : j < (m.crowdingOf (ranked.fronts.getD (ranked.rank i) [])).length := by
    rwa [FitnessMatrix.length_crowdingOf]
  have hcrowding := getD_crowdingTable (m := m) hnodup hlt hfront hj
  rw [heq] at hcrowding
  rw [getD_table m ranked (hlt i hi), hcrowding]
  refine ⟨j, ?_, ?_⟩
  · rw [List.getElem?_eq_getElem hj, heq]
  · rw [List.getElem?_eq_getElem hj', List.getD_eq_getElem _ _ hj']

end Standing

end ParetoSelection
