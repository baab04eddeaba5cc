import Mathlib.Data.Nat.Choose.Sum
import ParetoSelection.Binary64
import ParetoSelection.Proofs.SimplexLattice
import ParetoSelection.Proofs.SimplexLattice.Binomial

/-!
# The lattice has every point once

The points of a lattice with `h` steps come from the ways to write `h` as an ordered sum,
one summand for each objective. `compositions` lists them by their first summand, and for
each of these by the rest; so all of them are listed (`mem_compositions_iff`), they ascend
strictly in lexicographic order (`pairwise_lex_compositions`), and there are as many as
multisets of `h` objectives (`length_compositions`), which is a binomial coefficient.

A table of the points is made with room for as many as have been counted beforehand. The
count is right unless one of its products outgrows a word, and in that case, as for any
lattice that no table has room for, there is no table (`isListing_points`).
-/

namespace ParetoSelection

namespace SimplexLattice

/-! ## Compositions -/

/-- **All ways to write `total` as an ordered sum of `parts` natural numbers**, each of them
once, and in ascending lexicographic order. -/
structure IsListing (parts total : Nat) (listed : List (List Nat)) : Prop where
  /-- The tuples that are listed are those with the right sum. -/
  mem_iff : ∀ c, c ∈ listed ↔ c.length = parts ∧ c.sum = total
  /-- No tuple is listed twice. -/
  nodup : listed.Nodup
  /-- Every tuple is lexicographically below all that follow. -/
  pairwise_lex : listed.Pairwise (List.Lex (· < ·))
  /-- There are as many as a binomial coefficient says. -/
  length_eq : listed.length = (total + parts - 1).choose (parts - 1)

/-- **Every tuple with the right sum is a composition**, and nothing else is. -/
theorem mem_compositions_iff {parts total : Nat} (hparts : 0 < parts) {c : List Nat} :
    c ∈ compositions parts total ↔ c.length = parts ∧ c.sum = total := by
  refine ⟨of_mem_compositions, ?_⟩
  induction parts, total using compositions.induct generalizing c with
  | case1 total => exact absurd hparts (Nat.lt_irrefl 0)
  | case2 total =>
    rintro ⟨hlen, rfl⟩
    obtain ⟨i, rfl⟩ := List.length_eq_one_iff.1 hlen
    rw [List.sum_singleton]
    exact List.mem_singleton_self _
  | case3 parts total ih =>
    rintro ⟨hlen, hsum⟩
    obtain ⟨i, c, rfl⟩ := List.exists_cons_of_length_eq_add_one hlen
    rw [List.sum_cons] at hsum
    have hi : i < total + 1 := by omega
    have hrest : c ∈ compositions (parts + 1) (total - i) :=
      ih i (Nat.succ_pos parts) ⟨Nat.succ.inj hlen, by omega⟩
    exact List.mem_flatMap.2 ⟨i, List.mem_range.2 hi, List.mem_map_of_mem hrest⟩

/-- **Compositions ascend** in lexicographic order: those with the same first summand by
their rest, and all others by their first summand. -/
theorem pairwise_lex_compositions (parts total : Nat) :
    (compositions parts total).Pairwise (List.Lex (· < ·)) := by
  induction parts, total using compositions.induct with
  | case1 total => exact List.Pairwise.nil
  | case2 total => exact List.pairwise_singleton _ _
  | case3 parts total ih =>
    rw [compositions, List.pairwise_flatMap]
    refine ⟨fun i _ => ?_, List.pairwise_lt_range.imp fun {i j} hij c hc d hd => ?_⟩
    · exact List.pairwise_map.2 ((ih i).imp List.Lex.cons)
    · obtain ⟨c, -, rfl⟩ := List.mem_map.1 hc
      obtain ⟨d, -, rfl⟩ := List.mem_map.1 hd
      exact List.Lex.rel hij

/-- **There are as many compositions as multisets**: a composition says how often each part
is taken. -/
theorem length_compositions {parts total : Nat} (hparts : 0 < parts) :
    (compositions parts total).length = parts.multichoose total := by
  induction parts, total using compositions.induct with
  | case1 total => exact absurd hparts (Nat.lt_irrefl 0)
  | case2 total => rw [compositions, List.length_singleton, Nat.multichoose_one]
  | case3 parts total ih =>
    have hfirst (i : Nat) : ((compositions (parts + 1) (total - i)).map (i :: ·)).length
        = (parts + 1).multichoose (total - i) := by
      rw [List.length_map, ih i (Nat.succ_pos parts)]
    rw [compositions, List.length_flatMap]
    simp only [hfirst]
    calc ((List.range (total + 1)).map fun i => (parts + 1).multichoose (total - i)).sum
        = ∑ i ∈ Finset.range (total + 1), (parts + 1).multichoose (total - i) := rfl
      _ = ∑ i ∈ Finset.range (total + 1), (parts + 1).multichoose i :=
          Finset.sum_range_reflect (parts + 1).multichoose (total + 1)
      _ = (total + (parts + 1)).choose (parts + 1) := Nat.sum_range_multichoose total (parts + 1)
      _ = (parts + 2).multichoose total := by
          rw [Nat.multichoose_eq, ← Nat.choose_symm_add]
          exact congrArg (Nat.choose · total) (by omega)

/-- **The compositions are a listing.** -/
theorem isListing_compositions {parts : Nat} (hparts : 0 < parts) (total : Nat) :
    IsListing parts total (compositions parts total) where
  mem_iff _ := mem_compositions_iff hparts
  nodup := by
    refine (pairwise_lex_compositions parts total).imp fun {c d} hlt heq => ?_
    subst heq
    exact List.lex_irrefl Nat.lt_irrefl c hlt
  pairwise_lex := pairwise_lex_compositions parts total
  length_eq := by
    rw [length_compositions hparts, Nat.multichoose_eq]
    have htotal : parts + total - 1 = total + (parts - 1) := by omega
    rw [htotal, Nat.choose_symm_add, Nat.add_sub_assoc hparts]

/-! ## The table of the points -/

variable {α : Type} [Scalar α] {dim h : Nat}

/-- **A lattice is counted right** if all products fit into a word. -/
theorem size_eq_ite (hdim : 1 ≤ dim) :
    size dim h = if Fits (h + dim - 1) (dim - 1) then (compositions dim h).length else maxWord := by
  rw [size, if_neg (Nat.ne_of_gt hdim), choose_eq_ite, (isListing_compositions hdim h).length_eq]

/-- A count that there is room for is right. -/
theorem size_eq_of_le_maxPoints (hdim : 1 ≤ dim) (hroom : size dim h ≤ maxPoints) :
    size dim h = (compositions dim h).length := by
  rw [size_eq_ite hdim] at hroom ⊢
  split_ifs at hroom ⊢ with hfits
  · rfl
  · exact absurd hroom (by decide)

/-- **The lattice has every point once.** Its points are the tuples with the right sum, each
of them once and in ascending order, divided by the number of steps, and there is a binomial
number of them. That is the number that is counted, unless a product of the count outgrows a
word. If there is room for as many points as have been counted the count is right and the
points are returned, and if there is not, nothing is. -/
theorem isListing_points (hdim : 1 ≤ dim) (hsteps : 1 ≤ h) :
    IsListing dim h (compositions dim h)
      ∧ (points dim h : List (List α))
          = (compositions dim h).map (fun c => c.map fun i => Scalar.ofNat i / Scalar.ofNat h)
      ∧ size dim h
          = (if Fits (h + dim - 1) (dim - 1) then (compositions dim h).length else maxWord)
      ∧ (size dim h ≤ maxPoints →
          size dim h = (compositions dim h).length
            ∧ checkedPoints dim h = .ok (points dim h : List (List α)))
      ∧ (maxPoints < size dim h → checkedPoints (α := α) dim h = .error .tooLarge) := by
  refine ⟨isListing_compositions hdim h, ?_, size_eq_ite hdim,
    fun hroom => ⟨size_eq_of_le_maxPoints hdim hroom, ?_⟩, fun hlarge => if_pos hlarge⟩
  · exact if_neg (Nat.ne_of_gt hsteps)
  · exact if_neg (Nat.not_lt_of_le hroom)

/-- The six points of a triangle with two steps. -/
theorem triangle_isListing :
    1 ≤ 3 ∧ 1 ≤ 2
      ∧ IsListing 3 2 [[0, 0, 2], [0, 1, 1], [0, 2, 0], [1, 0, 1], [1, 1, 0], [2, 0, 0]]
      ∧ size 3 2 = 6
      ∧ checkedPoints 3 2
          = .ok [[0, 0, 1], [0, ⟨0x3fe0000000000000⟩, ⟨0x3fe0000000000000⟩], [(0 : Binary64), 1, 0],
              [⟨0x3fe0000000000000⟩, 0, ⟨0x3fe0000000000000⟩],
              [⟨0x3fe0000000000000⟩, ⟨0x3fe0000000000000⟩, 0], [1, 0, 0]] := by
  obtain ⟨hlisting, hpoints, -, hroom, -⟩ :=
    isListing_points (α := Binary64) (show 1 ≤ 3 by decide) (show 1 ≤ 2 by decide)
  obtain ⟨hsize, hok⟩ := hroom (by decide)
  have hlisted : compositions 3 2
      = [[0, 0, 2], [0, 1, 1], [0, 2, 0], [1, 0, 1], [1, 1, 0], [2, 0, 0]] := by decide
  rw [hlisted] at hlisting hpoints hsize
  refine ⟨by decide, by decide, hlisting, hsize, ?_⟩
  rw [hok, hpoints]
  decide +kernel

/-- **Not every lattice that can be counted is returned**: on two axes with `10 ^ 18` steps
the points are counted right, and no table has room for them. -/
theorem vastLattice_checkedPoints :
    Fits (1000000000000000000 + 2 - 1) (2 - 1)
      ∧ size 2 1000000000000000000 = 1000000000000000001
      ∧ ¬ ∃ ps : List (List Binary64), checkedPoints 2 1000000000000000000 = .ok ps := by
  have hsize : size 2 1000000000000000000 = 1000000000000000001 := by decide
  refine ⟨by decide, hsize, ?_⟩
  rintro ⟨ps, hps⟩
  unfold checkedPoints at hps
  rw [if_pos (by rw [hsize]; decide)] at hps
  cases hps

end SimplexLattice

end ParetoSelection
