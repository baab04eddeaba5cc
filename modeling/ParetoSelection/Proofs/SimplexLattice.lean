import Mathlib.Algebra.BigOperators.Group.List.Basic
import Mathlib.Algebra.GroupWithZero.Nat
import ParetoSelection.Proofs.Fitness
import ParetoSelection.SimplexLattice

/-!
# The points of a simplex lattice

A point of the lattice comes from a composition of the division count, so it has a
coordinate for every objective, and the numerators sum up to the division count. There
is at least one point, and the division count of a run is never zero.
-/

namespace ParetoSelection

namespace SimplexLattice

/-! ## Compositions -/

/-- **What a composition is**: as many numbers as there are parts, which sum up to the
total. -/
theorem of_mem_compositions {parts total : Nat} {c : List Nat} (h : c ∈ compositions parts total) :
    c.length = parts ∧ c.sum = total := by
  induction parts, total using compositions.induct generalizing c with
  | case1 total => exact absurd h List.not_mem_nil
  | case2 total =>
    obtain rfl := List.mem_singleton.1 h
    exact ⟨rfl, List.sum_singleton⟩
  | case3 parts total ih =>
    obtain ⟨i, hi, hc⟩ := List.mem_flatMap.1 h
    obtain ⟨c', hc', rfl⟩ := List.mem_map.1 hc
    obtain ⟨hlen, hsum⟩ := ih i hc'
    refine ⟨by rw [List.length_cons, hlen], ?_⟩
    rw [List.sum_cons, hsum]
    exact Nat.add_sub_of_le (Nat.le_of_lt_succ (List.mem_range.1 hi))

/-- There is a composition, if there is a part. -/
theorem compositions_ne_nil {parts : Nat} (h : 0 < parts) (total : Nat) :
    compositions parts total ≠ [] := by
  induction parts, total using compositions.induct with
  | case1 total => exact absurd h (Nat.lt_irrefl 0)
  | case2 total => exact List.cons_ne_nil _ _
  | case3 parts total ih =>
    obtain ⟨c, hc⟩ := List.exists_mem_of_ne_nil _ (ih 0 (Nat.succ_pos parts))
    have hzero : 0 ∈ List.range (total + 1) := List.mem_range.2 (Nat.succ_pos total)
    exact List.ne_nil_of_mem (List.mem_flatMap.2 ⟨0, hzero, List.mem_map_of_mem hc⟩)

/-! ## Points -/

variable {α : Type} [Scalar α] {dim h : Nat}

/-- **A point of the lattice** is a composition of the division count, divided by it. -/
theorem exists_of_mem_points {p : List α} (hp : p ∈ points dim h) :
    h ≠ 0 ∧ ∃ c : List Nat, c.length = dim ∧ c.sum = h
      ∧ p = c.map fun i => Scalar.ofNat i / Scalar.ofNat h := by
  unfold points at hp
  split at hp
  · exact absurd hp List.not_mem_nil
  · rename_i hpos
    obtain ⟨c, hc, rfl⟩ := List.mem_map.1 hp
    obtain ⟨hlen, hsum⟩ := of_mem_compositions hc
    exact ⟨hpos, c, hlen, hsum, rfl⟩

/-- A point has a coordinate for every objective. -/
theorem length_of_mem_points {p : List α} (hp : p ∈ points dim h) : p.length = dim := by
  obtain ⟨-, c, hlen, -, rfl⟩ := exists_of_mem_points hp
  rw [List.length_map, hlen]

/-- There is a point. -/
theorem points_ne_nil (hdim : 0 < dim) (hpos : h ≠ 0) : (points dim h : List (List α)) ≠ [] := by
  unfold points
  rw [if_neg hpos]
  exact mt List.map_eq_nil_iff.1 (compositions_ne_nil hdim h)

/-! ## The division count -/

/-- The search for a division count only goes up. -/
theorem le_firstReaching (dim target h : Nat) : h ≤ firstReaching dim target h := by
  fun_induction firstReaching dim target h with
  | case1 h hless ih => exact Nat.le_of_succ_le ih
  | case2 h hless => exact Nat.le_refl h

/-- **The division count that is chosen is at least one.** -/
theorem nearestDivisions_pos (dim target : Nat) : 0 < nearestDivisions dim target := by
  have hle := le_firstReaching dim target 1
  unfold nearestDivisions
  dsimp only
  split_ifs with hdim hone hnear
  · exact Nat.one_pos
  · exact Nat.one_pos
  · omega
  · omega

variable {target : Nat} {divisions : Option Nat}

/-- **The division count of a run is not zero**, given or chosen. -/
theorem of_divisionCount_eq_ok (hcount : divisionCount dim target divisions = .ok h) :
    2 ≤ dim ∧ h ≠ 0 := by
  unfold divisionCount at hcount
  split at hcount
  · cases hcount
  · rename_i hdim
    refine ⟨Nat.le_of_not_lt hdim, ?_⟩
    split at hcount
    · cases hcount
    · rename_i hnonzero
      obtain rfl := Except.ok.inj hcount
      rintro rfl
      exact hnonzero rfl
    · obtain rfl := Except.ok.inj hcount
      exact Nat.ne_of_gt (nearestDivisions_pos dim target)

/-- There is a division count for two objectives or more, unless it is given as zero. -/
theorem exists_divisionCount (hdim : 2 ≤ dim) (target : Nat) (hdivisions : divisions ≠ some 0) :
    ∃ h, divisionCount dim target divisions = .ok h := by
  unfold divisionCount
  rw [if_neg (Nat.not_lt_of_le hdim)]
  split
  · exact absurd rfl hdivisions
  · exact ⟨_, rfl⟩
  · exact ⟨_, rfl⟩

/-- The directions of a run are the points of the lattice with its division count. -/
theorem directions_eq_ok (hcount : divisionCount dim target divisions = .ok h)
    (hroom : size dim h ≤ maxPoints) :
    directions dim target divisions = .ok (points dim h : List (List α)) := by
  unfold directions checkedPoints
  rw [hcount]
  exact if_neg (Nat.not_lt_of_le hroom)

/-- **What the directions of a run are.** -/
theorem of_directions_eq_ok {ps : List (List α)} (hps : directions dim target divisions = .ok ps) :
    ∃ h, divisionCount dim target divisions = .ok h ∧ ps = points dim h := by
  obtain ⟨h, hcount, hps⟩ := exists_of_bind_eq_ok hps
  refine ⟨h, of_mapError_eq_ok hcount, ?_⟩
  unfold checkedPoints at hps
  split at hps
  · cases hps
  · exact (Except.ok.inj hps).symm

end SimplexLattice

end ParetoSelection
