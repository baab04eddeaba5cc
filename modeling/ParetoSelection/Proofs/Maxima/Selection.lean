import ParetoSelection.Proofs.Binary64.Trichotomy
import ParetoSelection.Proofs.Maxima.Graded

/-!
# Every finder selects

That divide and conquer and elimination return some of their candidates, and at least one,
holds whatever the numbers are. The same is true of the filter along the lexicographic
order, which keeps the first candidate it sees (`isSelection_sortFilter`).

The finder for a single objective is the exception. It starts from negative infinity and
keeps whoever is tied with the maximum. Among finite values the maximum is attained, and a
finite value is tied with itself (`isSelection_oneObjective`). An infinite maximum is not
tied with itself, for its difference to itself is no number; and where all values are NaN,
the maximum is one that nobody has.
-/

namespace ParetoSelection

namespace Maxima

section Filter

variable {α ι : Type} [Scalar α] (row : ι → List α)

/-- One step of the filter. -/
def keepStep (kept : List ι) (i : ι) : List ι :=
  if isDominatedBy row kept i then kept else kept ++ [i]

/-- The filter keeps whom it has kept, and in addition some of the candidates it goes
through. -/
theorem foldl_keepStep (kept candidates : List ι) :
    kept <+: candidates.foldl (keepStep row) kept ∧
      (candidates.foldl (keepStep row) kept).Sublist (kept ++ candidates) := by
  induction candidates generalizing kept with
  | nil =>
    rw [List.append_nil]
    exact ⟨List.prefix_rfl, List.Sublist.refl _⟩
  | cons i candidates ih =>
    obtain ⟨hkeeps, hsublist⟩ := ih (keepStep row kept i)
    rw [List.foldl_cons]
    unfold keepStep at hkeeps hsublist ⊢
    split at hkeeps
    · rename_i hdominated
      rw [if_pos hdominated] at hsublist ⊢
      exact ⟨hkeeps, hsublist.trans
        ((List.append_sublist_append_left kept).2 (List.sublist_cons_self i candidates))⟩
    · rename_i hkept
      rw [if_neg hkept] at hsublist ⊢
      rw [List.append_assoc, List.singleton_append] at hsublist
      exact ⟨(List.prefix_append kept [i]).trans hkeeps, hsublist⟩

/-- **Sorting and filtering selects**, whatever the numbers. -/
theorem isSelection_sortFilter (candidates : List ι) :
    IsSelection candidates (sortFilter row candidates) where
  subperm := (foldl_keepStep row [] (descending row candidates)).2.subperm.trans
    (stableSort_perm _ candidates).subperm
  ne_nil hne := by
    obtain ⟨i, sorted, hsorted⟩ : ∃ i sorted, descending row candidates = i :: sorted := by
      refine List.exists_cons_of_ne_nil fun hnil => hne ?_
      have hperm : (descending row candidates).Perm candidates := stableSort_perm _ candidates
      rw [hnil] at hperm
      exact hperm.nil_eq.symm
    have hfirst : [i] <+: sortFilter row candidates := by
      rw [sortFilter, hsorted]
      exact (foldl_keepStep row [i] sorted).1
    exact hfirst.ne_nil (List.cons_ne_nil i [])

end Filter

/-- **The finder for a single objective selects** among finite values. -/
theorem isSelection_oneObjective {ι : Type} {row : ι → List Binary64} {candidates : List ι}
    (h : ∀ i ∈ candidates, (firstObjective row i).IsFinite) :
    IsSelection candidates (oneObjective row candidates) where
  subperm := List.filter_sublist.subperm
  ne_nil hne := by
    obtain ⟨k, hk, hmax, -⟩ := exists_maximum
      (fun i hi j hj => Binary64.lt_iff (h i hi).isNumber (h j hj).isNumber)
      (fun i hi => Binary64.bne_self (h i hi)) (fun i hi => Binary64.negInfinity_lt (h i hi)) hne
    have hmem : k ∈ oneObjective row candidates := by
      rw [oneObjective, hmax]
      exact List.mem_filter.2 ⟨hk, Binary64.isEqualWithin_self Binary64.defaultTolerance_pos.1
        Binary64.defaultTolerance_pos.2 (h k hk)⟩
    exact List.ne_nil_of_mem hmem

end Maxima

end ParetoSelection
