import ParetoSelection.Proofs.Binary64.Order
import ParetoSelection.Proofs.Crowding.Places
import ParetoSelection.Proofs.Fronts.Strategy
import ParetoSelection.Proofs.Nsga2
import ParetoSelection.Proofs.Standings
import ParetoSelection.Proofs.TopOf

/-!
# Truncation keeps the most isolated

Of the front at the cut NSGA-II keeps the members with the largest crowding distances, and of
those with equal ones the members that are listed first. Three lists of places are involved:
distances are computed by places in a front, sorted and cut by candidates, and remembered by
places among the survivors. As every candidate is listed once at most – by any strategy, and
whatever its dominance is like – the three agree. So a comparison of distances at places of
the front says who stays (`IsTruncation`), and what is remembered of a survivor is its rank
and the distance at its place in its own front (`Standing.IsOf`).

The main result is `isTruncation_nextGeneration`. It asks for nothing but that the generation
has survivors, and that the comparison by which distances are sorted places all of them:
candidates that the ranking has lost do not come into it. Nor does it matter which NaN an
operation results in, though by its sign a distance that is NaN comes above all others or
below them (`Binary64.isTotalBy_orderKey_withNaN`).
-/

namespace ParetoSelection

open Scalar

namespace Nsga2

variable {α κ : Type} [Scalar α] [LinearOrder κ] {key : α → κ}

/-! ## The most isolated -/

/-- **The member at one place of a front is more isolated** than the one at another, by the
crowding distances of the front; if these compare as equal, the one that is listed first is. -/
def IsMoreIsolated (distances : List α) (j k : Nat) : Prop :=
  totalCmp (distances.getD j 0) (distances.getD k 0) = .gt
    ∨ totalCmp (distances.getD j 0) (distances.getD k 0) = .eq ∧ j < k

/-- **A front is cut** by crowding distance. -/
structure IsTruncation (m : FitnessMatrix α) (ranked : RankedFronts) (target : Nat)
    (kept : List Nat) : Prop where
  /-- Fronts are complete as long as they fit, and the next one is taken in part. -/
  isCut : IsCut target ranked.fronts (ranked.complete target) (ranked.overflowing target)
  /-- Every member of a complete front survives. -/
  complete_subset : ranked.complete target ⊆ kept
  /-- All other survivors are members of the next front. -/
  subset : kept ⊆ ranked.complete target ++ ranked.overflowing target
  /-- Nobody survives twice. -/
  nodup : kept.Nodup
  /-- Places are left free only if there is nobody in the next front to take them. -/
  length_eq : kept.length
    = min target ((ranked.complete target).length + (ranked.overflowing target).length)
  /-- Members of the next front that survive are more isolated than those that do not. -/
  isMoreIsolated : ∀ j k (hj : j < (ranked.overflowing target).length)
    (hk : k < (ranked.overflowing target).length),
    (ranked.overflowing target)[j] ∈ kept → (ranked.overflowing target)[k] ∉ kept →
    IsMoreIsolated (m.crowdingOf (ranked.overflowing target)) j k

/-- Of two members of a list the one that is found before the other has the lower place. -/
theorem lt_of_pair_sublist {xs : List Nat} (hnodup : xs.Nodup) {j k : Nat} (hj : j < xs.length)
    (hk : k < xs.length) (h : [xs[j], xs[k]].Sublist xs) : j < k := by
  have hplaces : xs.Pairwise fun x y => xs.idxOf x < xs.idxOf y := by
    refine List.pairwise_iff_getElem.2 fun i l hi hl hil => ?_
    rwa [hnodup.idxOf_getElem i hi, hnodup.idxOf_getElem l hl]
  have hlt := List.pairwise_iff_forall_sublist.1 hplaces h
  rwa [hnodup.idxOf_getElem j hj, hnodup.idxOf_getElem k hk] at hlt

/-- Of two candidates the one that comes first in descending order of crowding distance has the
larger one, or has come first before. -/
theorem pairwise_mostIsolatedFirst (hkey : IsTotalBy key) (standings : Array (Standing α))
    (candidates : List Nat) :
    (mostIsolatedFirst standings candidates).Pairwise fun i k =>
      totalCmp (standings.getD i .lost).crowding (standings.getD k .lost).crowding = .gt
        ∨ totalCmp (standings.getD i .lost).crowding (standings.getD k .lost).crowding = .eq
          ∧ [i, k].Sublist candidates := by
  -- in descending order of distances the keys ascend in the opposite order
  have hsorted := pairwise_stableSort_of_key
    (fun i => OrderDual.toDual (key (standings.getD i .lost).crowding))
    (fun i k => hkey.totalLE_iff.trans OrderDual.toDual_le_toDual.symm) candidates
  refine hsorted.imp fun {i k} hik => ?_
  rw [hkey, compare_gt_iff_gt, compare_eq_iff_eq]
  exact hik

/-- A front that overflows is a front. -/
theorem overflowing_mem_fronts {ranked : RankedFronts} {target : Nat}
    (h : ranked.overflowing target ≠ []) : ranked.overflowing target ∈ ranked.fronts := by
  cases ranked.isCut target with
  | through before front after fronts_eq _ overflowing_eq _ _ =>
    rw [fronts_eq, overflowing_eq]
    exact List.mem_append_right before List.mem_cons_self
  | behind _ overflowing_eq _ => exact absurd overflowing_eq h

/-- **The survivors are those of a truncation**, if every candidate is listed once at most. -/
theorem isTruncation_survivors (hkey : IsTotalBy key) (m : FitnessMatrix α)
    {ranked : RankedFronts} (hnodup : ranked.ordered.Nodup)
    (hlt : ∀ i ∈ ranked.ordered, i < ranked.size) (target : Nat) :
    IsTruncation m ranked target (survivors ranked (Standing.table m ranked) target) := by
  have hperm : (mostIsolatedFirst (Standing.table m ranked) (ranked.overflowing target)).Perm
      (ranked.overflowing target) := stableSort_perm _ _
  have htop := (isTopOf_take (pairwise_mostIsolatedFirst hkey (Standing.table m ranked)
    (ranked.overflowing target)) (target - (ranked.complete target).length)).of_perm hperm
  have hcut : (ranked.complete target ++ ranked.overflowing target).Nodup :=
    hnodup.sublist (ranked.complete_append_overflowing_prefix target).sublist
  obtain ⟨-, hover, hdisjoint⟩ := List.nodup_append'.1 hcut
  have hkept := (List.subperm_append_left (ranked.complete target)).2 htop.subperm
  refine ⟨ranked.isCut target, List.subset_append_left _ _, hkept.subset,
    nodup_of_subperm hkept hcut, ?_, fun j k hj hk hstays hgoes => ?_⟩
  · have hfits := ranked.length_complete_le target
    unfold survivors
    rw [List.length_append, htop.length_eq]
    omega
  · have hfront : ranked.overflowing target ∈ ranked.fronts :=
      overflowing_mem_fronts (List.ne_nil_of_mem (List.getElem_mem hj))
    have hdistance {j : Nat} (hj : j < (ranked.overflowing target).length) :
        ((Standing.table m ranked).getD (ranked.overflowing target)[j] .lost).crowding
          = (m.crowdingOf (ranked.overflowing target)).getD j 0 :=
      (congrArg Standing.crowding (Standing.getD_table m ranked
          (hlt _ (List.mem_flatten_of_mem hfront (List.getElem_mem hj))))).trans
        (Standing.getD_crowdingTable hnodup hlt hfront hj)
    have htaken := (List.mem_append.1 hstays).resolve_left fun hmem =>
      List.disjoint_left.1 hdisjoint hmem (List.getElem_mem hj)
    have hbefore := htop.before_of_not_mem _ htaken _ (List.getElem_mem hk) fun hmem =>
      hgoes (List.mem_append_right _ hmem)
    rw [hdistance hj, hdistance hk] at hbefore
    exact hbefore.imp_right (And.imp_right (lt_of_pair_sublist hover hj hk))

/-! ## A generation -/

/-- **A generation keeps the most isolated** of the front at the cut, and remembers of every
survivor the rank and the crowding distance that it had among parents and children. Distances
are those of whole fronts, and can be computed for all of them. -/
theorem isTruncation_nextGeneration (hkey : IsTotalBy key) {p after : Nsga2 α}
    {parents children : FitnessMatrix α} {kept : List Nat}
    (h : p.nextGeneration parents children = (.ok kept, after)) :
    IsTruncation (parents ++ children) ((parents ++ children).rankWith p.settings.strategy)
        p.settings.populationSize kept
      ∧ (∀ front ∈ ((parents ++ children).rankWith p.settings.strategy).fronts,
          (parents ++ children).checkedCrowdingOf front
            = .ok ((parents ++ children).crowdingOf front))
      ∧ ∃ standings, after.standings = some standings ∧ standings.size = kept.length
        ∧ ∀ k (hk : k < kept.length),
          Standing.IsOf (parents ++ children)
            ((parents ++ children).rankWith p.settings.strategy) kept[k]
            (standings.getD k .lost) := by
  unfold nextGeneration at h
  cases hcheck : checkNext parents children p with
  | error e =>
    rw [hcheck] at h
    cases congrArg Prod.fst h
  | ok combined =>
    obtain ⟨rfl, -, hcount⟩ := of_checkNext_eq_ok hcheck
    obtain ⟨-, -, hrows⟩ := FitnessMatrix.of_objectiveCount_eq_ok hcount
    rw [hcheck] at h
    dsimp only at h
    obtain ⟨hkept, rfl⟩ := Prod.mk.inj h
    obtain rfl := Except.ok.inj hkept
    have hlt (i : Nat) (hi : i ∈ ((parents ++ children).rankWith p.settings.strategy).ordered) :
        i < ((parents ++ children).rankWith p.settings.strategy).size := by
      rw [size_rankWith]
      exact lt_of_mem_ordered_rankWith hi
    have htruncation := isTruncation_survivors hkey (parents ++ children)
      nodup_ordered_rankWith hlt p.settings.populationSize
    refine ⟨htruncation, fun front hfront => ?_, _, rfl, ?_, fun k hk => ?_⟩
    · refine FitnessMatrix.checkedCrowdingOf_eq_ok_of_rows hrows fun i hi => ?_
      exact lt_of_mem_ordered_rankWith (List.mem_flatten_of_mem hfront hi)
    · rw [List.size_toArray, List.length_map]
    · have hplaced := (RankedFronts.complete_append_overflowing_prefix _ _).subset
        (htruncation.subset (List.getElem_mem hk))
      rw [Array.getD_eq_getD_getElem?, List.getElem?_toArray, List.getElem?_map,
        List.getElem?_eq_getElem hk]
      exact Standing.isOf_getD_table nodup_ordered_rankWith hlt hplaced

/-- Three members on a line that runs down, on which nobody dominates anybody. -/
def ridge : FitnessMatrix Binary64 :=
  #[[⟨0⟩, ⟨0x4010000000000000⟩], [⟨0x3ff0000000000000⟩, ⟨0x4008000000000000⟩],
    [⟨0x3ff8000000000000⟩, ⟨0x4004000000000000⟩]]

/-- Three children on the same line. -/
def ridgeChildren : FitnessMatrix Binary64 :=
  #[[⟨0x4010000000000000⟩, ⟨0⟩], [⟨0x4000000000000000⟩, ⟨0x4000000000000000⟩],
    [⟨0x400c000000000000⟩, ⟨0x3fe0000000000000⟩]]

/-- The policy of the three members. -/
def ridgePolicy : Nsga2 Binary64 :=
  (start ridge ⟨{ populationSize := 3, seed := some 7 }, ⟨7⟩, none, 0⟩).2

/-- The ends of the line stay, and of the other four the first of the two most isolated. -/
theorem ridgePolicy_isTruncation :
    (ridgePolicy.nextGeneration ridge ridgeChildren).1 = .ok [0, 3, 4]
      ∧ ((ridge ++ ridgeChildren).rankWith ridgePolicy.settings.strategy).overflowing 3
        = [0, 1, 2, 3, 4, 5]
      ∧ IsMoreIsolated ((ridge ++ ridgeChildren).crowdingOf [0, 1, 2, 3, 4, 5]) 4 5 := by
  have hkept : (ridgePolicy.nextGeneration ridge ridgeChildren).1 = .ok [0, 3, 4] := by
    decide +kernel
  have hfront : ((ridge ++ ridgeChildren).rankWith ridgePolicy.settings.strategy).overflowing 3
      = [0, 1, 2, 3, 4, 5] := by decide +kernel
  have hsize : ridgePolicy.settings.populationSize = 3 := by decide +kernel
  obtain ⟨htruncation, -⟩ := isTruncation_nextGeneration Binary64.isTotalBy_orderKey
    (Prod.ext hkept rfl)
  have hisolated := htruncation.isMoreIsolated 4 5
  simp only [hsize, hfront] at hisolated
  have hstays : 4 ∈ [0, 3, 4] := by decide
  have hgoes : 5 ∉ [0, 3, 4] := by decide
  exact ⟨hkept, hfront, hisolated (by decide) (by decide) hstays hgoes⟩

end Nsga2

end ParetoSelection
