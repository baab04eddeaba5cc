import Mathlib.Data.Fin.Tuple.Sort
import ParetoSelection.Proofs.Binary64.Order
import ParetoSelection.Proofs.Crowding.Places

/-!
# Crowding in another order

A front is a list, and crowding distances are listed in the same order. The order matters
where members have equal values in an objective, as those are visited in the order of the
front. Where they have not, a member is visited at the same place in every order of the
front, between the same values, and its distance is added up over the same objectives from
first to last. So the very numbers that are added are the same (`getElem?_ofRows_of_perm`),
and nothing is asked of how they are added: the distances are those of before, rearranged
like the front (`crowdingPasses_rearranged`).
-/

namespace ParetoSelection

/-- **A list in another order.** -/
def rearranged {ι : Type} (xs : List ι) (σ : Equiv.Perm (Fin xs.length)) : List ι :=
  List.ofFn fun p => xs.get (σ p)

/-- It has the same elements. -/
theorem rearranged_perm {ι : Type} (xs : List ι) (σ : Equiv.Perm (Fin xs.length)) :
    (rearranged xs σ).Perm xs := by
  have hperm := σ.ofFn_comp_perm xs.get
  rwa [List.ofFn_get] at hperm

namespace Crowding

variable {α κ : Type} [Scalar α] [LinearOrder κ] {key : α → κ}

/-- **A member has the same distance in another order**, if no two members have values with the
same key in an objective. -/
theorem getElem?_ofRows_of_perm (hkey : IsTotalBy key) {objectives : Nat}
    {rows rows' : List (List α)}
    (hdistinct : ∀ k < objectives, ((objective rows k).map key).Nodup)
    (hperm : rows'.Perm rows) {p q : Nat} (hp : p < rows'.length) (hq : q < rows.length)
    (h : rows'[p] = rows[q]) : (ofRows objectives rows')[p]? = (ofRows objectives rows)[q]? := by
  obtain hlen | hlen := le_or_gt rows.length 2
  · rw [getElem?_ofRows_of_length_le hlen objectives hq,
      getElem?_ofRows_of_length_le (hperm.length_eq.trans_le hlen) objectives hp]
  have hget {rows : List (List α)} {p : Nat} (hp : p < rows.length) (k : Nat) :
      (objective rows k).toArray.getD p 0 = rows[p].getD k 0 := by
    rw [getD_toArray, objective, List.getD_eq_getElem _ _ (by rwa [List.length_map]),
      List.getElem_map]
  rw [getElem?_ofRows (hperm.length_eq.symm ▸ hlen) objectives hp,
    getElem?_ofRows hlen objectives hq]
  refine congrArg some (List.foldl_ext _ _ _ fun d k hk => ?_)
  have hk := hdistinct k (List.mem_range.1 hk)
  have hvalues : (objective rows' k).Perm (objective rows k) := hperm.map _
  rw [sortedValues_of_perm hkey hk hvalues]
  refine congrArg (extend _ · d) (placeOf_of_perm hkey hk hvalues ?_ ?_ ?_)
  · rwa [objective, List.length_map]
  · rwa [objective, List.length_map]
  · rw [hget hp, hget hq, h]

end Crowding

namespace FitnessMatrix

section Keyed

variable {α κ : Type} [Scalar α] [LinearOrder κ] {key : α → κ} {m : FitnessMatrix α}
  {front : List Nat} {dim : Nat}

/-- **The distances of a front in another order** are the distances of the front in that
order. -/
theorem crowdingOf_rearranged (hkey : IsTotalBy key) (hrows : ∀ row ∈ m, row.length = dim)
    (hfront : ∀ i ∈ front, i < m.size)
    (hdistinct : ∀ k < dim, ((Crowding.objective (front.map m.row) k).map key).Nodup)
    (σ : Equiv.Perm (Fin front.length)) :
    m.crowdingOf (rearranged front σ)
      = List.ofFn fun p => (m.crowdingOf front).toArray.getD (σ p) 0 := by
  have hperm := rearranged_perm front σ
  refine List.ext_getElem? fun p => ?_
  rw [List.getElem?_ofFn]
  by_cases hp : p < front.length
  · have hp' : p < (rearranged front σ).length := Nat.lt_of_lt_of_eq hp hperm.length_eq.symm
    have hwidth : m.frontWidth front = dim :=
      frontWidth_eq hrows hfront (List.ne_nil_of_length_pos (Nat.zero_lt_of_lt hp))
    have hwidth' : m.frontWidth (rearranged front σ) = dim :=
      frontWidth_eq hrows (fun i hi => hfront i (hperm.mem_iff.1 hi))
        (List.ne_nil_of_length_pos (Nat.zero_lt_of_lt hp'))
    have hmember : (rearranged front σ)[p] = front[σ ⟨p, hp⟩] := List.getElem_ofFn _
    have hdistance : (m.crowdingOf (rearranged front σ))[p]?
        = (m.crowdingOf front)[(σ ⟨p, hp⟩ : Nat)]? := by
      rw [crowdingOf, crowdingOf, hwidth, hwidth']
      refine Crowding.getElem?_ofRows_of_perm hkey hdistinct (hperm.map _) ?_ ?_ ?_
      · rwa [List.length_map]
      · rw [List.length_map]
        exact (σ ⟨p, hp⟩).2
      · rw [List.getElem_map, List.getElem_map]
        exact congrArg m.row hmember
    have hlt : (σ ⟨p, hp⟩ : Nat) < (m.crowdingOf front).length := by
      rw [length_crowdingOf]
      exact (σ ⟨p, hp⟩).2
    rw [dif_pos hp, hdistance, getD_toArray, List.getD_eq_getElem _ _ hlt,
      List.getElem?_eq_getElem hlt]
  · rw [dif_neg hp, List.getElem?_eq_none]
    rw [length_crowdingOf, hperm.length_eq]
    exact Nat.le_of_not_lt hp

end Keyed

/-! ## Patterns -/

variable {m : FitnessMatrix Binary64} {front : List Nat} {dim : Nat}

/-- **Crowding distances are rearranged like the front**, pattern by pattern, if no two of its
members compare as equal in an objective. -/
theorem crowdingPasses_rearranged (hrows : ∀ row ∈ m, row.length = dim)
    (hfront : ∀ i ∈ front, i < m.size)
    (hdistinct : ∀ k < dim, (front.map fun i => (m.row i).getD k 0).Pairwise
      fun x y => Scalar.totalCmp x y ≠ .eq)
    (σ : Equiv.Perm (Fin front.length)) :
    ∃ ds : Array Binary64, ds.size = front.length
      ∧ m.crowdingPasses front = .ok ds
      ∧ m.checkedCrowdingOf front = .ok ds.toList
      ∧ m.crowdingPasses (rearranged front σ) = .ok (Array.ofFn fun p => ds.getD (σ p) 0)
      ∧ m.checkedCrowdingOf (rearranged front σ) = .ok (List.ofFn fun p => ds.getD (σ p) 0) := by
  have hfront' : ∀ i ∈ rearranged front σ, i < m.size := fun i hi =>
    hfront i ((rearranged_perm front σ).mem_iff.1 hi)
  -- values that do not compare as equal have different keys
  have hkeys : ∀ k < dim,
      ((Crowding.objective (front.map m.row) k).map fun x => x.orderKey.toNat).Nodup := by
    intro k hk
    rw [Crowding.objective, List.map_map, List.map_map, List.Nodup, List.pairwise_map]
    refine (List.pairwise_map.1 (hdistinct k hk)).imp fun {i j} hne heq => hne ?_
    rw [Binary64.isTotalBy_orderKey, compare_eq_iff_eq]
    exact heq
  have hsame := crowdingOf_rearranged Binary64.isTotalBy_orderKey hrows hfront hkeys σ
  have hchecked := checkedCrowdingOf_eq_ok_of_rows hrows hfront
  have hchecked' := checkedCrowdingOf_eq_ok_of_rows hrows hfront'
  refine ⟨(m.crowdingOf front).toArray, ?_, ?_, hchecked, ?_, hsame ▸ hchecked'⟩
  · rw [List.size_toArray, length_crowdingOf]
  · rw [crowdingPasses_eq, hchecked]
    rfl
  · rw [crowdingPasses_eq, hchecked', hsame]
    exact congrArg Except.ok List.toArray_ofFn

/-- Four members, of which each has less of the second objective than the one before. -/
def slope : FitnessMatrix Binary64 :=
  #[[⟨0x3ff0000000000000⟩, ⟨0x4020000000000000⟩], [⟨0x4000000000000000⟩, ⟨0x4014000000000000⟩],
    [⟨0x4010000000000000⟩, ⟨0x4000000000000000⟩], [⟨0x4020000000000000⟩, ⟨0x3ff0000000000000⟩]]

/-- The four members the other way round have their distances the other way round. -/
theorem slope_reversed :
    (∀ row ∈ slope, row.length = 2) ∧ (∀ i ∈ [0, 1, 2, 3], i < slope.size)
      ∧ (∀ k < 2, ([0, 1, 2, 3].map fun i => (slope.row i).getD k 0).Pairwise
          fun x y => Scalar.totalCmp x y ≠ .eq)
      ∧ ∃ ds, slope.crowdingPasses [0, 1, 2, 3] = .ok ds
        ∧ slope.crowdingPasses [3, 2, 1, 0]
          = .ok #[ds.getD 3 0, ds.getD 2 0, ds.getD 1 0, ds.getD 0 0] := by
  have hrows : ∀ row ∈ slope, row.length = 2 := by decide +kernel
  have hfront : ∀ i ∈ [0, 1, 2, 3], i < slope.size := by decide +kernel
  have hdistinct : ∀ k < 2, ([0, 1, 2, 3].map fun i => (slope.row i).getD k 0).Pairwise
      fun x y => Scalar.totalCmp x y ≠ .eq := by decide +kernel
  obtain ⟨ds, -, hds, -, hreversed, -⟩ :=
    crowdingPasses_rearranged hrows hfront hdistinct Fin.revPerm
  exact ⟨hrows, hfront, hdistinct, ds, hds, hreversed⟩

end FitnessMatrix

end ParetoSelection
