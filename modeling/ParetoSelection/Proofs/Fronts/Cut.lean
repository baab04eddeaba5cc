import ParetoSelection.Proofs.Fronts.Partition

/-!
# The cut of a ranked population

A population with room for `target` members takes whole fronts as long as they
fit, and then some members of the front that does not. `RankedFronts.IsCut`
describes what is taken as a whole and what is taken in part: either the cut
goes through a front, with the complete fronts before it, or every front fits
and nothing is taken in part. The rank of a candidate tells on which side of
the cut it is.

`IsPartition.isSurvivorChoice` is what every policy relies on: whichever
members of the front at the cut are taken, as many as there is room for, nobody
who is left out has a better rank than anybody who stays.
-/

namespace ParetoSelection

/-- **How fronts are cut**, given what is taken as a whole and what only in
part. -/
inductive IsCut (target : Nat) (fronts : List (List Nat)) (complete overflowing : List Nat) :
    Prop where
  /-- The cut goes through a front, and the ones before it fit. -/
  | through (before : List (List Nat)) (front : List Nat) (after : List (List Nat))
      (fronts_eq : fronts = before ++ front :: after)
      (complete_eq : complete = before.flatten) (overflowing_eq : overflowing = front)
      (fits : complete.length ≤ target) (overflows : target < complete.length + front.length)
  /-- All fronts fit. -/
  | behind (complete_eq : complete = fronts.flatten) (overflowing_eq : overflowing = [])
      (fits : complete.length ≤ target)

/-- The first front that reaches beyond `target`, or the end of the fronts. -/
theorem CriticalFront.findFrom_cases (target rank position : Nat) (fronts : List (List Nat)) :
    (∃ before front after, fronts = before ++ front :: after
        ∧ findFrom target rank position fronts
          = ⟨some (rank + before.length), position + before.flatten.length,
              position + before.flatten.length + front.length⟩
        ∧ (before ≠ [] → position + before.flatten.length ≤ target)
        ∧ target < position + before.flatten.length + front.length)
      ∨ findFrom target rank position fronts
          = ⟨none, position + fronts.flatten.length, position + fronts.flatten.length⟩
        ∧ (fronts ≠ [] → position + fronts.flatten.length ≤ target) := by
  induction fronts generalizing rank position with
  | nil => exact Or.inr ⟨rfl, fun h => absurd rfl h⟩
  | cons front rest ih =>
    unfold findFrom
    by_cases hover : target < position + front.length
    · rw [if_pos hover]
      exact Or.inl ⟨[], front, rest, rfl, rfl, fun h => absurd rfl h, by simpa using hover⟩
    · rw [if_neg hover]
      have hlen (before : List (List Nat)) :
          position + front.length + before.flatten.length
            = position + (front :: before).flatten.length := by
        rw [List.flatten_cons, List.length_append, Nat.add_assoc]
      rcases ih (rank + 1) (position + front.length) with
        ⟨before, critical, after, hrest, hfind, hfits, hgt⟩ | ⟨hfind, hfits⟩
      · refine Or.inl ⟨front :: before, critical, after, by rw [hrest]; rfl, ?_, fun _ => ?_, ?_⟩
        · rw [hfind, hlen, List.length_cons, Nat.add_assoc rank, Nat.add_comm 1]
        · by_cases hnil : before = []
          · subst hnil
            simpa using hover
          · rw [← hlen]
            exact hfits hnil
        · rw [← hlen]
          exact hgt
      · refine Or.inr ⟨by rw [hfind, hlen], fun _ => ?_⟩
        by_cases hnil : rest = []
        · subst hnil
          simpa using hover
        · rw [← hlen]
          exact hfits hnil

namespace RankedFronts

/-- **The complete and the overflowing fronts of a ranking are a cut of it.** -/
theorem isCut (r : RankedFronts) (target : Nat) :
    IsCut target r.fronts (r.complete target) (r.overflowing target) := by
  unfold complete overflowing criticalFront CriticalFront.find ordered
  rcases CriticalFront.findFrom_cases target 0 0 r.fronts with
    ⟨before, front, after, hfronts, hfind, hfits, hgt⟩ | ⟨hfind, hfits⟩
  · rw [hfind, hfronts]
    simp only [Nat.zero_add] at hfits hgt ⊢
    have hflat : (before ++ front :: after).flatten
        = before.flatten ++ (front ++ after.flatten) := by
      rw [List.flatten_append, List.flatten_cons]
    rw [hflat, List.take_left]
    refine .through before front after rfl rfl ?_ ?_ hgt
    · rw [← List.append_assoc, ← List.length_append, List.take_left, List.drop_left]
    · by_cases hnil : before = []
      · subst hnil
        exact Nat.zero_le target
      · exact hfits hnil
  · rw [hfind]
    simp only [Nat.zero_add] at hfits ⊢
    rw [List.take_length, List.drop_length]
    refine .behind rfl rfl ?_
    by_cases hnil : r.fronts = []
    · rw [hnil]
      exact Nat.zero_le target
    · exact hfits hnil

/-- **The front at the cut lies within the order** from best to worst. -/
theorem criticalFront_bounds (r : RankedFronts) (target : Nat) :
    (r.criticalFront target).first ≤ (r.criticalFront target).last
      ∧ (r.criticalFront target).last ≤ r.ordered.length := by
  unfold criticalFront CriticalFront.find ordered
  obtain ⟨before, front, after, hfronts, hfind, -⟩ | ⟨hfind, -⟩ :=
    CriticalFront.findFrom_cases target 0 0 r.fronts
  · rw [hfind, hfronts, List.flatten_append, List.flatten_cons, List.length_append,
      List.length_append]
    dsimp only
    omega
  · rw [hfind]
    dsimp only
    omega

/-- What fits does not exceed the target. -/
theorem length_complete_le (r : RankedFronts) (target : Nat) :
    (r.complete target).length ≤ target := by
  cases r.isCut target with
  | through _ _ _ _ _ _ fits _ => exact fits
  | behind _ _ fits => exact fits

/-- **The fronts up to the cut suffice** for a target that the ranking can
fill. -/
theorem le_length_complete_add {r : RankedFronts} {target : Nat}
    (h : target ≤ r.ordered.length) :
    target ≤ (r.complete target).length + (r.overflowing target).length := by
  cases r.isCut target with
  | through before front after _ _ overflowing_eq _ overflows =>
    rw [overflowing_eq]
    exact Nat.le_of_lt overflows
  | behind complete_eq overflowing_eq _ =>
    rw [complete_eq, overflowing_eq]
    exact h

/-- The candidates up to the cut are a beginning of the order from best to
worst. -/
theorem complete_append_overflowing_prefix (r : RankedFronts) (target : Nat) :
    r.complete target ++ r.overflowing target <+: r.ordered := by
  unfold ordered
  cases r.isCut target with
  | through before front after fronts_eq complete_eq overflowing_eq _ _ =>
    refine ⟨after.flatten, ?_⟩
    rw [fronts_eq, complete_eq, overflowing_eq, List.flatten_append, List.flatten_cons,
      List.append_assoc]
  | behind complete_eq overflowing_eq _ =>
    refine ⟨[], ?_⟩
    rw [complete_eq, overflowing_eq, List.append_nil, List.append_nil]

/-- **Nobody behind the cut has a better rank than anybody before it**: the
candidates up to the cut, against those outside the fronts that fit. -/
theorem rank_le_of_cut {r : RankedFronts} (hr : r.ordered.Nodup) {target s t : Nat}
    (hs : s ∈ r.complete target ++ r.overflowing target) (ht : t ∈ r.ordered)
    (hnot : t ∉ r.complete target) : r.rank s ≤ r.rank t := by
  cases r.isCut target with
  | behind complete_eq _ _ =>
    rw [complete_eq] at hnot
    exact absurd ht hnot
  | through before front after fronts_eq complete_eq overflowing_eq _ _ =>
    rw [complete_eq, overflowing_eq] at hs
    rw [complete_eq] at hnot
    -- up to the cut ranks are at most the number of fronts before it
    have hle : r.rank s ≤ before.length := by
      rcases List.mem_append.1 hs with hs | hs
      · obtain ⟨k, hk, hsk⟩ := List.mem_iff_getElem.1 (List.mem_flatten.1 hs).choose_spec.1
        have hmem : s ∈ r.fronts.getD k [] := by
          rw [fronts_eq, List.getD_append _ _ _ _ hk, List.getD_eq_getElem _ _ hk, hsk]
          exact (List.mem_flatten.1 hs).choose_spec.2
        rw [rank_eq_of_mem hr hmem]
        exact Nat.le_of_lt hk
      · have hmem : s ∈ r.fronts.getD before.length [] := by
          rw [fronts_eq, List.getD_append_right _ _ _ _ (Nat.le_refl _), Nat.sub_self]
          exact hs
        exact Nat.le_of_eq (rank_eq_of_mem hr hmem)
    refine Nat.le_trans hle (Nat.le_of_not_lt fun hlt => hnot ?_)
    have hmem := mem_front_rank ht
    rw [fronts_eq, List.getD_append _ _ _ _ hlt, List.getD_eq_getElem _ _ hlt] at hmem
    exact List.mem_flatten_of_mem (List.getElem_mem hlt) hmem

/-! ## What a choice of survivors has to be -/

/-- **A proper choice of survivors** from a ranked population: as many as there
is room for, pairwise different, all of them candidates, and nobody who is left
out has a better rank than anybody who stays. -/
structure IsSurvivorChoice (r : RankedFronts) (target : Nat) (kept : List Nat) : Prop where
  /-- There are `target` survivors. -/
  length_eq : kept.length = target
  /-- No survivor is listed twice. -/
  nodup : kept.Nodup
  /-- Every survivor is a candidate. -/
  lt_size : ∀ i ∈ kept, i < r.size
  /-- Ranks of survivors are at most the ranks of the others. -/
  rank_le : ∀ s ∈ kept, ∀ t < r.size, t ∉ kept → r.rank s ≤ r.rank t

/-- **Taking the fronts that fit and some of the next one is a proper
choice.** -/
theorem IsPartition.isSurvivorChoice {r : RankedFronts} (hr : r.IsPartition) {target : Nat}
    {taken : List Nat} (htaken : taken.Subperm (r.overflowing target))
    (hlen : (r.complete target ++ taken).length = target) :
    r.IsSurvivorChoice target (r.complete target ++ taken) := by
  have hsub : (r.complete target ++ taken).Subperm r.ordered :=
    ((List.subperm_append_left _).2 htaken).trans
      (r.complete_append_overflowing_prefix target).sublist.subperm
  have hmem {i : Nat} (hi : i ∈ r.complete target ++ taken) :
      i ∈ r.complete target ++ r.overflowing target :=
    ((List.subperm_append_left _).2 htaken).subset hi
  refine ⟨hlen, nodup_of_subperm hsub hr.nodup, ?_, ?_⟩
  · exact fun i hi => (hr.mem_ordered i).1 (hsub.subset hi)
  intro s hs t ht hnot
  exact rank_le_of_cut hr.nodup (hmem hs) ((hr.mem_ordered t).2 ht)
    (fun h => hnot (List.mem_append_left _ h))

end RankedFronts

end ParetoSelection
