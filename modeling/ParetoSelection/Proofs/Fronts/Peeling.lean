import ParetoSelection.Fronts.Strategy
import ParetoSelection.Proofs.Fronts.Layers
import ParetoSelection.Proofs.Maxima.Front

/-!
# Peeling with a finder

Peeling needs little of its finder to place everybody: that it returns some of
what it is given, each candidate at most once, and at least one
(`isPartition_ofPeeling`). This holds of divide and conquer and of elimination
for all numbers there are, so that nothing can make them lose a candidate.

With a finder that returns the front of what it is given, peeling finds the
layers of dominance (`isLayered_peel`).
-/

namespace ParetoSelection

/-- Who remains when a front is taken off. -/
theorem mem_without {front remaining : List Nat} {i : Nat} :
    i ∈ without front remaining ↔ i ∈ remaining ∧ i ∉ front := by
  unfold without
  rw [List.mem_filter, Bool.not_eq_true', List.contains_eq_mem, decide_eq_false_iff_not]

/-- Something that is taken off is missing afterwards. -/
theorem length_without_lt {front remaining : List Nat} {i : Nat} (hfront : i ∈ front)
    (hi : i ∈ remaining) : (without front remaining).length < remaining.length := by
  refine List.length_filter_lt_length_iff_exists.2 ⟨i, hi, ?_⟩
  rw [List.contains_iff_mem.2 hfront]
  exact Bool.false_ne_true

/-- Taking a selection off fails to shorten an empty list only. -/
theorem IsSelection.eq_nil_of_not_lt {front remaining : List Nat}
    (h : IsSelection remaining front)
    (hlt : ¬ (without front remaining).length < remaining.length) : remaining = [] := by
  by_contra hne
  obtain ⟨i, hi⟩ := List.exists_mem_of_ne_nil _ (h.ne_nil hne)
  exact hlt (length_without_lt hi (h.subperm.subset hi))

/-- A selection and what remains make up what there was. -/
theorem append_without_perm {front remaining : List Nat} (hnodup : remaining.Nodup)
    (h : front.Subperm remaining) : (front ++ without front remaining).Perm remaining := by
  have hfront : front.Nodup := nodup_of_subperm h hnodup
  refine (List.perm_ext_iff_of_nodup ?_ hnodup).2 fun i => ?_
  · refine List.nodup_append'.2 ⟨hfront, hnodup.filter _, fun i hi hrest => ?_⟩
    exact (mem_without.1 hrest).2 hi
  · rw [List.mem_append, mem_without]
    constructor
    · rintro (hi | hi)
      · exact h.subset hi
      · exact hi.1
    · intro hi
      exact (em (i ∈ front)).imp id fun hnot => ⟨hi, hnot⟩

/-- **Peeling places nobody twice**, if its finder returns nobody more often than it is given. -/
theorem flatten_peel_subperm {finder : List Nat → List Nat} {remaining : List Nat}
    (hfinder : ∀ xs, (finder xs).Subperm xs) (hnodup : remaining.Nodup) :
    (peel finder remaining).flatten.Subperm remaining := by
  fun_induction peel finder remaining with
  | case1 remaining front hlt ih =>
    rw [List.flatten_cons]
    exact ((List.subperm_append_left front).2 (ih (hnodup.filter _))).trans
      (append_without_perm hnodup (hfinder remaining)).subperm
  | case2 remaining front hlt => exact List.nil_subperm

/-! ## Everybody is placed -/

/-- **Peeling places everybody** if its finder always selects. -/
theorem flatten_peel_perm {finder : List Nat → List Nat} {remaining : List Nat}
    (hfinder : ∀ xs, xs ⊆ remaining → IsSelection xs (finder xs)) (hnodup : remaining.Nodup) :
    (peel finder remaining).flatten.Perm remaining
      ∧ ∀ front ∈ peel finder remaining, front ≠ [] := by
  fun_induction peel finder remaining with
  | case1 remaining front hlt ih =>
    have hfront : IsSelection remaining front := hfinder remaining (List.Subset.refl _)
    have hsub : without front remaining ⊆ remaining := fun i hi => (mem_without.1 hi).1
    obtain ⟨hperm, hne⟩ := ih (fun xs hxs => hfinder xs (List.Subset.trans hxs hsub))
      (hnodup.filter _)
    constructor
    · rw [List.flatten_cons]
      exact (hperm.append_left front).trans (append_without_perm hnodup hfront.subperm)
    · refine List.forall_mem_cons.2 ⟨hfront.ne_nil ?_, hne⟩
      rintro rfl
      exact Nat.not_lt_zero _ hlt
  | case2 remaining front hlt =>
    rw [(hfinder remaining (List.Subset.refl _)).eq_nil_of_not_lt hlt]
    exact ⟨List.Perm.refl _, fun _ h => absurd h List.not_mem_nil⟩

/-- **A ranking by peeling loses nobody** if its finder always selects. -/
theorem isPartition_ofPeeling {finder : List Nat → List Nat} {size : Nat}
    (hfinder : ∀ xs, xs ⊆ List.range size → IsSelection xs (finder xs)) :
    (RankedFronts.ofPeeling finder size).IsPartition := by
  have hnodup : (List.range size).Nodup := List.nodup_range
  obtain ⟨hperm, hne⟩ := flatten_peel_perm hfinder hnodup
  exact .of_perm hne hperm

variable {α : Type} [Scalar α]

/-- Divide and conquer and elimination always select, whatever the numbers. -/
theorem isSelection_run {finder : Finder} (h : finder = .kung ∨ finder = .best)
    (row : Nat → List α) (xs : List Nat) : IsSelection xs (finder.run row xs) := by
  rcases h with rfl | rfl
  · exact Maxima.isSelection_kung row xs
  · exact Maxima.isSelection_best row xs

/-! ## What is peeled off are the layers -/

/-- **Peeling with a finder of the front finds the layers** of dominance among
the candidates that are not yet placed. -/
theorem isLayered_peel {D : Nat → Nat → Prop} {n : Nat} (hD : ∀ i j, D i j → i < n)
    {finder : List Nat → List Nat}
    (hfinder : ∀ xs, xs ⊆ List.range n → IsFrontOf D xs (finder xs))
    {done remaining : List Nat} (hnodup : remaining.Nodup)
    (hremaining : ∀ i, i ∈ remaining ↔ i < n ∧ i ∉ done) :
    IsLayered D n done (peel finder remaining) := by
  induction remaining using peel.induct finder generalizing done with
  | case1 remaining front hlt =>
    rename_i ih
    rw [peel, if_pos hlt]
    have hfront : IsFrontOf D remaining (finder remaining) :=
      hfinder remaining fun i hi => List.mem_range.2 ((hremaining i).1 hi).1
    have hsub := hfront.subperm.subset
    have hne : remaining ≠ [] := by
      rintro rfl
      exact Nat.not_lt_zero _ hlt
    refine .cons (hfront.isSelection.ne_nil hne) ⟨?_, fun j => ?_⟩ (ih (hnodup.filter _) ?_)
    · exact nodup_of_subperm hfront.subperm hnodup
    · rw [hfront.mem_iff, hremaining, and_assoc]
      refine and_congr_right fun _ => and_congr_right fun _ => forall_congr' fun i => ?_
      rw [hremaining]
      constructor
      · intro hnone hij
        by_contra hi
        exact hnone ⟨hD i j hij, hi⟩ hij
      · intro hall hi hij
        exact hi.2 (hall hij)
    · intro i
      rw [mem_without, hremaining, List.mem_append, not_or, and_assoc]
  | case2 remaining front =>
    rename_i hlt
    rw [peel, if_neg hlt]
    have hfront : IsFrontOf D remaining (finder remaining) :=
      hfinder remaining fun i hi => List.mem_range.2 ((hremaining i).1 hi).1
    refine .nil ⟨List.nodup_nil, fun j => iff_of_false List.not_mem_nil ?_⟩
    rintro ⟨hj, hnot, -⟩
    have hne : remaining ≠ [] := List.ne_nil_of_mem ((hremaining j).2 ⟨hj, hnot⟩)
    exact hne (hfront.isSelection.eq_nil_of_not_lt hlt)

end ParetoSelection
