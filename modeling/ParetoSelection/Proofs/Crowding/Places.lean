import ParetoSelection.Proofs.Crowding.Passes
import ParetoSelection.Proofs.Keyed
import ParetoSelection.Proofs.StableSort

/-!
# Places in the order of an objective

The members of a front are visited in ascending order of an objective, and those with equal
values in the order of the front. So of two members the one that comes before the other
(`ComesBefore`) is the one with the lower place (`comesBefore_iff`), which makes places a way
to count members and not a result of sorting.

Where no two members have equal values a place is the place of a value. The values in
ascending order are then the same however the members are listed (`sortedValues_of_perm`),
and so are the places of all members (`placeOf_of_perm`).
-/

namespace ParetoSelection

namespace Crowding

variable {α κ : Type} [Scalar α] [LinearOrder κ] {key : α → κ} {values values' : List α}
  {p q place : Nat}

/-- **A member comes before another** if its value is lower, or equal and the member is listed
before. -/
def ComesBefore {ι : Type} [LT ι] (v : ι → κ) (p q : ι) : Prop :=
  v p < v q ∨ v p = v q ∧ p < q

/-- The key of the value of a member. -/
def keyAt (key : α → κ) (values : List α) (p : Nat) : κ :=
  key (values.toArray.getD p 0)

/-- Of two members the one that is visited first comes before the other. -/
theorem pairwise_ascendingPositions (hkey : IsTotalBy key) (values : List α) :
    (ascendingPositions values.toArray).Pairwise (ComesBefore (keyAt key values)) := by
  have hsorted := pairwise_stableSort_of_key (keyAt key values) (fun p q => hkey.totalLE_iff)
    (List.range values.toArray.size)
  refine hsorted.imp fun {p q} hpq => hpq.imp_right (And.imp_right fun hsub => ?_)
  exact List.pairwise_iff_forall_sublist.1 List.pairwise_lt_range hsub

/-- **Places are in the order of the members**: the member that comes before another has the
lower place. -/
theorem comesBefore_iff (hkey : IsTotalBy key) (hp : p < values.length) (hq : q < values.length) :
    ComesBefore (keyAt key values) p q ↔ placeOf values p < placeOf values q := by
  have hlower {p q : Nat} (hp : p < values.length) (hq : q < values.length)
      (hlt : placeOf values p < placeOf values q) : ComesBefore (keyAt key values) p q := by
    have hget {p : Nat} (hp : p < values.length) :
        (ascendingPositions values.toArray)[placeOf values p]? = some p := by
      rw [List.getElem?_eq_getElem (by
        rw [length_ascendingPositions]; exact placeOf_lt hp)]
      exact congrArg some (List.getElem_idxOf _)
    obtain ⟨hp', hp''⟩ := List.getElem?_eq_some_iff.1 (hget hp)
    obtain ⟨hq', hq''⟩ := List.getElem?_eq_some_iff.1 (hget hq)
    have hpair := List.pairwise_iff_getElem.1 (pairwise_ascendingPositions hkey values) _ _ hp'
      hq' hlt
    rwa [hp'', hq''] at hpair
  refine ⟨fun hbefore => ?_, hlower hp hq⟩
  obtain hlt | heq | hgt := Nat.lt_trichotomy (placeOf values p) (placeOf values q)
  · exact hlt
  · -- members at one place are the same
    have hsame : p = q := by rw [← visitedAt_placeOf hp, heq, visitedAt_placeOf hq]
    subst hsame
    obtain hlt | ⟨-, hlt⟩ := hbefore
    · exact absurd hlt (lt_irrefl _)
    · exact absurd hlt (Nat.lt_irrefl p)
  · obtain hlt | ⟨heq, hlt⟩ := hlower hq hp hgt
    · obtain hlt' | ⟨heq, -⟩ := hbefore
      · exact absurd hlt' (lt_asymm hlt)
      · exact absurd heq (ne_of_gt hlt)
    · obtain hlt' | ⟨-, hlt'⟩ := hbefore
      · exact absurd heq (ne_of_gt hlt')
      · exact absurd hlt' (Nat.lt_asymm hlt)

/-! ## Values that are all different -/

/-- The values in ascending order are the values. -/
theorem toList_sortedValues_perm (values : List α) : (sortedValues values).toList.Perm values := by
  have hperm := (ascendingPositions_perm values.toArray).map fun p => values.toArray.getD p 0
  rw [sortedValues, List.toList_toArray]
  refine hperm.trans (List.Perm.of_eq ?_)
  refine List.ext_getElem (by simp) fun p hp hp' => ?_
  rw [List.getElem_map, List.getElem_range, getD_toArray, List.getD_eq_getElem _ _ hp']

/-- They ascend. -/
theorem pairwise_sortedValues (hkey : IsTotalBy key) (values : List α) :
    (sortedValues values).toList.Pairwise fun a b => key a ≤ key b := by
  rw [sortedValues, List.toList_toArray, List.pairwise_map]
  refine (pairwise_ascendingPositions hkey values).imp fun {p q} hpq => ?_
  exact hpq.elim le_of_lt fun h => le_of_eq h.1

/-- **The values in ascending order do not depend on how they are listed**, if no two have the
same key. -/
theorem sortedValues_of_perm (hkey : IsTotalBy key) (hdistinct : (values.map key).Nodup)
    (hperm : values'.Perm values) : sortedValues values' = sortedValues values := by
  have hsame : (sortedValues values').toList.Perm (sortedValues values).toList :=
    (toList_sortedValues_perm values').trans (hperm.trans (toList_sortedValues_perm values).symm)
  refine Array.toList_inj.1 (List.Perm.eq_of_pairwise (fun a b ha hb hab hba => ?_)
    (pairwise_sortedValues hkey values') (pairwise_sortedValues hkey values) hsame)
  have hmem : a ∈ values := (toList_sortedValues_perm values).subset (hsame.subset ha)
  exact List.inj_on_of_nodup_map hdistinct hmem
    ((toList_sortedValues_perm values).subset hb) (le_antisymm hab hba)

/-- **A place is that of the member whose value is there**, if no two values are the same. -/
theorem eq_placeOf_of_getD_eq (hdistinct : values.Nodup) (hp : p < values.length)
    (hplace : place < values.length)
    (h : (sortedValues values).getD place 0 = values.toArray.getD p 0) :
    place = placeOf values p := by
  rw [getD_sortedValues hplace] at h
  have hq : visitedAt values place < values.length := visitedAt_lt hplace
  rw [getD_toArray, getD_toArray, List.getD_eq_getElem _ _ hq, List.getD_eq_getElem _ _ hp] at h
  have hsame : visitedAt values place = p := hdistinct.getElem_inj_iff.1 h
  rw [← hsame, placeOf_visitedAt hplace]

/-- **Nor does the place of a member**: in another list of the same values it is visited at the
same place. -/
theorem placeOf_of_perm (hkey : IsTotalBy key) (hdistinct : (values.map key).Nodup)
    (hperm : values'.Perm values) (hp : p < values'.length) (hq : q < values.length)
    (h : values'.toArray.getD p 0 = values.toArray.getD q 0) :
    placeOf values' p = placeOf values q := by
  refine eq_placeOf_of_getD_eq (hdistinct.of_map key) hq ?_ ?_
  · exact Nat.lt_of_lt_of_eq (placeOf_lt hp) hperm.length_eq
  · rw [← sortedValues_of_perm hkey hdistinct hperm, getD_sortedValues_placeOf hp, h]

end Crowding

end ParetoSelection
