import Mathlib.Data.List.Nodup
import Mathlib.Data.List.Perm.Subperm

/-!
# The first of some candidates

Those who are kept are often the first few in some order, and how they were found is of no
account: where nobody comes both before and after another there is only one list of them
(`IsTopOf.unique`). Whoever is not among the first of some candidates is not among the first
of more candidates either (`IsTopOf.trans`).
-/

namespace ParetoSelection

variable {ι κ : Type}

/-- **The first `n` of some candidates** in the order `before`: as many as there are, in
this order, and everybody else comes after all of them. -/
structure IsTopOf (before : ι → ι → Prop) (n : Nat) (candidates kept : List ι) : Prop where
  /-- Those kept are candidates, listed no more often. -/
  subperm : kept.Subperm candidates
  /-- There are `n` of them, or all. -/
  length_eq : kept.length = min n candidates.length
  /-- They are in order. -/
  pairwise : kept.Pairwise before
  /-- Who is dropped comes after those kept. -/
  before_of_not_mem : ∀ i ∈ kept, ∀ k ∈ candidates, k ∉ kept → before i k

variable {before : ι → ι → Prop} {n : Nat} {xs ys kept kept' : List ι}

/-- The first of a list in order are those at its beginning. -/
theorem isTopOf_take (h : xs.Pairwise before) (n : Nat) : IsTopOf before n xs (xs.take n) where
  subperm := (List.take_sublist n xs).subperm
  length_eq := List.length_take
  pairwise := h.sublist (List.take_sublist n xs)
  before_of_not_mem i hi k hk hnot := by
    have hsplit := List.take_append_drop n xs
    rw [← hsplit, List.pairwise_append] at h
    rw [← hsplit, List.mem_append] at hk
    exact h.2.2 i hi k (hk.resolve_left hnot)

namespace IsTopOf

/-- Nobody is kept twice. -/
theorem nodup (h : IsTopOf before n xs kept) (hnodup : xs.Nodup) : kept.Nodup := by
  obtain ⟨zs, hperm, hsublist⟩ := h.subperm
  exact hperm.nodup_iff.1 (hnodup.sublist hsublist)

/-- It does not matter how the candidates are listed. -/
theorem of_perm (h : IsTopOf before n xs kept) (hperm : xs.Perm ys) :
    IsTopOf before n ys kept where
  subperm := h.subperm.trans hperm.subperm
  length_eq := h.length_eq.trans (congrArg (min n) hperm.length_eq)
  pairwise := h.pairwise
  before_of_not_mem i hi k hk := h.before_of_not_mem i hi k (hperm.mem_iff.2 hk)

/-- If somebody is dropped, `n` are kept. -/
theorem length_eq_of_not_mem (h : IsTopOf before n xs kept) (hnodup : xs.Nodup) {k : ι}
    (hk : k ∈ xs) (hnot : k ∉ kept) : kept.length = n := by
  have hmore : (k :: kept).Subperm xs := by
    refine (List.nodup_cons.2 ⟨hnot, h.nodup hnodup⟩).subperm fun i hi => ?_
    obtain rfl | hi := List.mem_cons.1 hi
    · exact hk
    · exact h.subperm.subset hi
  have hlt : kept.length + 1 ≤ xs.length := hmore.length_le
  have heq := h.length_eq
  omega

/-- Who is kept in one list of the first is kept in the other. -/
theorem subset (h : IsTopOf before n xs kept) (h' : IsTopOf before n xs kept')
    (hasymm : ∀ i k, before i k → ¬ before k i) (hnodup : xs.Nodup) : kept ⊆ kept' := by
  intro i hi
  by_contra hi'
  -- as many are kept, so there is somebody in the place of `i`
  obtain ⟨k, hk, hk'⟩ : ∃ k ∈ kept', k ∉ kept := by
    by_contra hnone
    have hsub : kept' ⊆ kept := fun k hk => by_contra fun hk' => hnone ⟨k, hk, hk'⟩
    have hperm := ((h'.nodup hnodup).subperm hsub).perm_of_length_le
      (Nat.le_of_eq (h.length_eq.trans h'.length_eq.symm))
    exact hi' (hperm.mem_iff.2 hi)
  have hik := h.before_of_not_mem i hi k (h'.subperm.subset hk) hk'
  exact hasymm i k hik (h'.before_of_not_mem k hk i (h.subperm.subset hi) hi')

/-- **There is only one way to keep the first.** -/
theorem unique (h : IsTopOf before n xs kept) (h' : IsTopOf before n xs kept')
    (hasymm : ∀ i k, before i k → ¬ before k i) (hnodup : xs.Nodup) : kept = kept' := by
  have hperm : kept.Perm kept' :=
    (List.perm_ext_iff_of_nodup (h.nodup hnodup) (h'.nodup hnodup)).2 fun i =>
      ⟨fun hi => h.subset h' hasymm hnodup hi, fun hi => h'.subset h hasymm hnodup hi⟩
  exact hperm.eq_of_pairwise (fun i k _ _ hik hki => absurd hki (hasymm i k hik)) h.pairwise
    h'.pairwise

/-- **The first of the first and of more candidates are the first of all.** -/
theorem trans (h : IsTopOf before n xs kept) (h' : IsTopOf before n (kept ++ ys) kept')
    (htrans : ∀ i j k, before i j → before j k → before i k) (hnodup : (xs ++ ys).Nodup) :
    IsTopOf before n (xs ++ ys) kept' where
  subperm := h'.subperm.trans ((List.subperm_append_right ys).2 h.subperm)
  length_eq := by
    rw [h'.length_eq, List.length_append, List.length_append, h.length_eq]
    omega
  pairwise := h'.pairwise
  before_of_not_mem i hi k hk hnot := by
    have hxs : xs.Nodup := (List.nodup_append'.1 hnodup).1
    by_cases hk' : k ∈ kept ++ ys
    · exact h'.before_of_not_mem i hi k hk' hnot
    -- `k` has been dropped before
    rw [List.mem_append, not_or] at hk'
    have hkx : k ∈ xs := (List.mem_append.1 hk).resolve_right hk'.2
    obtain hik | hiy := List.mem_append.1 (h'.subperm.subset hi)
    · exact h.before_of_not_mem i hik k hkx hk'.1
    · -- `i` has taken the place of somebody who was kept before
      obtain ⟨j, hj, hj'⟩ : ∃ j ∈ kept, j ∉ kept' := by
        by_contra hnone
        have hsub : kept ⊆ kept' := fun j hj => by_contra fun hj' => hnone ⟨j, hj, hj'⟩
        have hfull : kept.length = n := h.length_eq_of_not_mem hxs hkx hk'.1
        have hikept : i ∉ kept := fun hik =>
          List.disjoint_left.1 (List.nodup_append'.1 hnodup).2.2 (h.subperm.subset hik) hiy
        have hmore : (i :: kept).Subperm kept' := by
          refine (List.nodup_cons.2 ⟨hikept, h.nodup hxs⟩).subperm fun j hj => ?_
          obtain rfl | hj := List.mem_cons.1 hj
          · exact hi
          · exact hsub hj
        have hle : kept.length + 1 ≤ kept'.length := hmore.length_le
        have heq := h'.length_eq
        omega
      have hij := h'.before_of_not_mem i hi j (List.mem_append_left ys hj) hj'
      exact htrans i j k hij (h.before_of_not_mem j hj k hkx hk'.1)

/-- Renaming the candidates keeps the first, if it keeps their order. -/
theorem map (h : IsTopOf before n xs kept) {before' : κ → κ → Prop} {f : ι → κ}
    (hf : ∀ i ∈ xs, ∀ k ∈ xs, before i k → before' (f i) (f k)) :
    IsTopOf before' n (xs.map f) (kept.map f) where
  subperm := by
    obtain ⟨zs, hperm, hsublist⟩ := h.subperm
    exact ⟨zs.map f, hperm.map f, hsublist.map f⟩
  length_eq := by
    rw [List.length_map, List.length_map, h.length_eq]
  pairwise := List.pairwise_map.2 (h.pairwise.imp_of_mem fun hi hk =>
    hf _ (h.subperm.subset hi) _ (h.subperm.subset hk))
  before_of_not_mem i hi k hk hnot := by
    obtain ⟨i', hi', rfl⟩ := List.mem_map.1 hi
    obtain ⟨k', hk', rfl⟩ := List.mem_map.1 hk
    have hdropped : k' ∉ kept := fun hkept => hnot (List.mem_map_of_mem hkept)
    exact hf i' (h.subperm.subset hi') k' hk' (h.before_of_not_mem i' hi' k' hk' hdropped)

end IsTopOf

end ParetoSelection
