import Mathlib.Algebra.GroupWithZero.Nat
import ParetoSelection.Nsga3.Policy
import ParetoSelection.Proofs.ConeTree.Search
import ParetoSelection.Proofs.Fronts.Partition

/-!
# Niche counts account for everybody

Every candidate is associated with a direction that exists, the ones that were
not looked up with the first (`direction_lookUp_lt`). So the niche counts of
some members, summed over the directions, are as many as there are members
(`nicheTotal_nicheCounts`), and the check that a generation makes of its own
counts always passes.
-/

namespace ParetoSelection

variable {α : Type} [Scalar α]

namespace Association

/-- **Every candidate has a direction of the tree**, associated or not. -/
theorem direction_lookUp_lt {directions : ConeTree α} (h : directions.IsSearchable)
    (e : Estimates α) (m : FitnessMatrix α) (ranks chosen : List Nat) (i : Nat) :
    (lookUp (table e directions m ranks chosen) i).direction < directions.size := by
  unfold lookUp table
  rw [Array.getD_eq_getD_getElem?, List.getElem?_toArray, List.getElem?_mapIdx]
  cases ranks[i]? with
  | none => exact h.size_pos
  | some rank =>
    show (if chosen.contains i then _ else _ : Association α).direction < _
    split
    · exact h.index_find_lt _
    · exact h.size_pos

/-- There is an association for every candidate. -/
theorem size_table (e : Estimates α) (directions : ConeTree α) (m : FitnessMatrix α)
    (ranked : RankedFronts) (chosen : List Nat) :
    (table e directions m ranked.ranks chosen).size = ranked.size := by
  rw [table, List.size_toArray, List.length_mapIdx, RankedFronts.length_ranks]

/-- **A chosen candidate** has the direction of its row. -/
theorem lookUp_table (e : Estimates α) (directions : ConeTree α) (m : FitnessMatrix α)
    (ranked : RankedFronts) {chosen : List Nat} {i : Nat} (hi : i < ranked.size)
    (hchosen : i ∈ chosen) :
    lookUp (table e directions m ranked.ranks chosen) i
      = ofRow e directions (ranked.rank i) (m.row i) := by
  unfold lookUp table RankedFronts.ranks
  rw [Array.getD_eq_getD_getElem?, List.getElem?_toArray, List.getElem?_mapIdx, List.getElem?_map,
    List.getElem?_range hi]
  exact if_pos (List.contains_iff_mem.2 hchosen)

/-- There is a count for every direction. -/
theorem size_nicheCounts (table : Array (Association α)) (directions : Nat)
    (members : List Nat) : (nicheCounts table directions members).size = directions := by
  rw [nicheCounts, List.size_toArray, List.length_map, List.length_range]

/-- Members of a direction below `n + 1` have one below `n`, or direction
`n`. -/
theorem countP_lt_succ (direction : Nat → Nat) (members : List Nat) (n : Nat) :
    (members.countP fun i => direction i < n + 1)
      = (members.countP fun i => direction i < n) + members.countP fun i => direction i = n := by
  induction members with
  | nil => rfl
  | cons i members ih =>
    rw [List.countP_cons, List.countP_cons, List.countP_cons, ih]
    rcases Nat.lt_trichotomy (direction i) n with h | h | h
    · rw [decide_eq_true (Nat.lt_succ_of_lt h), decide_eq_true h,
        decide_eq_false (Nat.ne_of_lt h), if_pos rfl, if_neg Bool.false_ne_true]
      omega
    · rw [h, decide_eq_true (Nat.lt_succ_self n), decide_eq_false (Nat.lt_irrefl n),
        decide_eq_true rfl, if_pos rfl, if_neg Bool.false_ne_true]
      omega
    · rw [decide_eq_false (Nat.not_lt_of_le h), decide_eq_false (Nat.lt_asymm h),
        decide_eq_false (Nat.ne_of_gt h), if_neg Bool.false_ne_true]
      omega

/-- Counts of all directions below `n` sum up to the members of one of them. -/
theorem sum_countP_eq (direction : Nat → Nat) (members : List Nat) (n : Nat) :
    ((List.range n).map fun d => members.countP fun i => direction i = d).sum
      = members.countP fun i => direction i < n := by
  induction n with
  | zero => exact (List.countP_eq_zero.2 fun i _ => by simp).symm
  | succ n ih =>
    rw [List.range_succ, List.map_append, List.sum_append, ih, List.map_singleton,
      List.sum_singleton, countP_lt_succ]

/-- **The niche counts sum up to the number of members**, if every member has a
direction that is counted. -/
theorem nicheTotal_nicheCounts {table : Array (Association α)} {directions : Nat}
    (h : ∀ i, (lookUp table i).direction < directions) (members : List Nat) :
    Nsga3.nicheTotal (nicheCounts table directions members) = members.length := by
  have hsum : Nsga3.nicheTotal (nicheCounts table directions members)
      = ((List.range directions).map fun d =>
          members.countP fun i => (lookUp table i).direction = d).sum := by
    unfold Nsga3.nicheTotal nicheCounts
    rw [List.sum_eq_foldl]
    simp
  rw [hsum, sum_countP_eq]
  exact List.countP_eq_length.2 fun i _ => decide_eq_true (h i)

/-- **The check of the niche counts passes.** -/
theorem requireTotal_eq_ok {table : Array (Association α)} {directions : Nat}
    (h : ∀ i, (lookUp table i).direction < directions) (members : List Nat) :
    Nsga3.requireTotal (nicheCounts table directions members) members = .ok () := by
  unfold Nsga3.requireTotal
  rw [nicheTotal_nicheCounts h]
  exact if_neg (not_not_intro rfl)

end Association

end ParetoSelection
