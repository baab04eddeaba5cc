import Mathlib.Data.Fintype.Card
import Mathlib.Data.Set.Finite.List
import ParetoSelection.Proofs.Binary64.Separation
import ParetoSelection.Proofs.Maxima.Graded

/-!
# Two finders, one list

Divide and conquer and the filter both go through the candidates in descending
lexicographic order. Where no candidate is dominated by a later one they keep the same
candidates and leave them in that order, so that they do not only agree on who is in the
front but return the same list: the sorted candidates without those that one of them
dominates.

Both proofs come down to one lemma about a list in two parts, the second of which
dominates nothing of the first (`undominated_append`). The filter is its case of one
candidate behind all others, divide and conquer its case of the two halves. It needs that
comparing with the *undominated* candidates of the first part is as good as comparing with
all of them, which is where dominance has to be transitive: whoever dominates somebody is
undominated or below somebody undominated (`IsStrictOn.exists_undominated`).
-/

namespace ParetoSelection

variable {α ι : Type} [Scalar α]

/-- **Whom somebody dominates, somebody undominated does**: going up from one dominator to
the next comes to an end. -/
theorem IsStrictOn.exists_undominated {D : ι → ι → Prop} {all xs : List ι}
    (h : IsStrictOn D all) (hsub : xs ⊆ all) {k i : ι} (hk : k ∈ xs) (hi : i ∈ all)
    (hki : D k i) : ∃ u ∈ xs, (∀ j ∈ xs, ¬ D j u) ∧ D u i := by
  have hfinite : Finite {j // j ∈ xs} := (List.finite_toSet xs).to_subtype
  have htrans : IsTrans _ (Subrel D (· ∈ xs)) :=
    ⟨fun a b c => h.trans a (hsub a.2) b (hsub b.2) c (hsub c.2)⟩
  have hirrefl : Std.Irrefl (Subrel D (· ∈ xs)) := ⟨fun a => h.irrefl a (hsub a.2)⟩
  obtain ⟨u, hu, hmin⟩ := (Finite.wellFounded_of_trans_of_irrefl (Subrel D (· ∈ xs))).has_min
    {u | D u i} ⟨⟨k, hk⟩, hki⟩
  refine ⟨u, u.2, fun j hj hju => hmin ⟨j, hj⟩ ?_ hju, hu⟩
  exact h.trans j (hsub hj) u (hsub u.2) i hi hju hu

namespace Maxima

variable (row : ι → List α)

/-! ## The undominated candidates of a list -/

/-- **The candidates that no listed one dominates**, in the order of the list and as often
as they are listed. -/
def undominated (xs : List ι) : List ι :=
  xs.filter fun i => !isDominatedBy row xs i

variable {row} {xs ys sorted : List ι}

/-- Being dominated by one of some candidates. -/
theorem isDominatedBy_iff {i : ι} : isDominatedBy row xs i = true ↔ ∃ k ∈ xs, Beats row k i :=
  List.any_eq_true

/-- The undominated ones of some candidates dominate as much as all of them. -/
theorem isDominatedBy_undominated {all : List ι} (hstrict : IsStrictOn (Beats row) all)
    (hsub : xs ⊆ all) {i : ι} (hi : i ∈ all) :
    isDominatedBy row (undominated row xs) i = isDominatedBy row xs i := by
  rw [Bool.eq_iff_iff, isDominatedBy_iff, isDominatedBy_iff]
  constructor
  · rintro ⟨k, hk, hki⟩
    exact ⟨k, List.mem_of_mem_filter hk, hki⟩
  · rintro ⟨k, hk, hki⟩
    obtain ⟨u, hu, hnone, hui⟩ := hstrict.exists_undominated hsub hk hi hki
    refine ⟨u, List.mem_filter.2 ⟨hu, ?_⟩, hui⟩
    simpa [isDominatedBy_iff, ← Bool.not_eq_true] using hnone

/-- **The undominated ones of two lists**, where nothing of the second list dominates
anything of the first one: all that are undominated in the first list, and those of the
second that none of the former dominates. -/
theorem undominated_append (hstrict : IsStrictOn (Beats row) (xs ++ ys))
    (hacross : ∀ i ∈ xs, ∀ k ∈ ys, ¬ Beats row k i) :
    undominated row (xs ++ ys) = undominated row xs
      ++ (undominated row ys).filter fun i => !isDominatedBy row (undominated row xs) i := by
  have happend (i : ι) : isDominatedBy row (xs ++ ys) i
      = (isDominatedBy row xs i || isDominatedBy row ys i) := List.any_append
  unfold undominated
  rw [List.filter_append, List.filter_filter]
  congr 1
  · refine List.filter_congr fun i hi => ?_
    have hnone : isDominatedBy row ys i = false := by
      rw [← Bool.not_eq_true, isDominatedBy_iff]
      rintro ⟨k, hk, hki⟩
      exact hacross i hi k hk hki
    rw [happend, hnone, Bool.or_false]
  · refine List.filter_congr fun i hi => ?_
    have hupper := isDominatedBy_undominated hstrict (List.subset_append_left xs ys)
      (List.mem_append_right xs hi)
    rw [undominated] at hupper
    rw [happend, Bool.not_or, hupper]

/-- A candidate alone is undominated. -/
theorem undominated_singleton {i : ι} (h : ¬ Beats row i i) : undominated row [i] = [i] := by
  have hnone : isDominatedBy row [i] i = false := by
    simpa [isDominatedBy, Beats] using h
  rw [undominated, List.filter_singleton, hnone]
  rfl

/-! ## Two ways through a sorted list -/

variable (row) in
/-- The filter, one candidate further. -/
theorem keepUndominated_concat (xs : List ι) (i : ι) :
    keepUndominated row (xs ++ [i]) = keepUndominated row xs
      ++ [i].filter fun i => !isDominatedBy row (keepUndominated row xs) i := by
  have hstep : keepUndominated row (xs ++ [i])
      = if isDominatedBy row (keepUndominated row xs) i then keepUndominated row xs
        else keepUndominated row xs ++ [i] := List.foldl_concat _ _ _ _
  rw [hstep]
  cases h : isDominatedBy row (keepUndominated row xs) i <;> simp [h]

/-- **The filter keeps the undominated candidates** of a list in which none dominates an
earlier one. -/
theorem keepUndominated_eq_undominated (hstrict : IsStrictOn (Beats row) sorted)
    (hsorted : sorted.Pairwise fun i j => ¬ Beats row j i) :
    keepUndominated row sorted = undominated row sorted := by
  induction sorted using List.reverseRecOn with
  | nil => rfl
  | append_singleton xs i ih =>
    obtain ⟨hxs, -, hacross⟩ := List.pairwise_append.1 hsorted
    have hi : i ∈ xs ++ [i] := List.mem_append_right xs List.mem_cons_self
    rw [keepUndominated_concat, ih (hstrict.mono (List.subset_append_left xs [i])) hxs,
      undominated_append hstrict hacross, undominated_singleton (hstrict.irrefl i hi)]

/-- **Divide and conquer keeps the undominated candidates** of such a list, if its short
test is the dominance test. -/
theorem ofSorted_eq_undominated (hstrict : IsStrictOn (Beats row) sorted)
    (hsorted : sorted.Pairwise fun i j => ¬ Beats row j i
      ∧ isDominatedFromAbove (row j) (row i) = dominates (row i) (row j)) :
    ofSorted row sorted = undominated row sorted := by
  fun_induction ofSorted row sorted with
  | case1 sorted h =>
    cases sorted with
    | nil => rfl
    | cons i rest =>
      obtain rfl : rest = [] := by simpa using h
      exact (undominated_singleton (hstrict.irrefl i List.mem_cons_self)).symm
  | case2 sorted h half ihu ihl =>
    have hsplit := List.take_append_drop half sorted
    generalize sorted.take half = top at *
    generalize sorted.drop half = bottom at *
    subst hsplit
    obtain ⟨htop, hbottom, hacross⟩ := List.pairwise_append.1 hsorted
    rw [ihu (hstrict.mono (List.subset_append_left top bottom)) htop,
      ihl (hstrict.mono (List.subset_append_right top bottom)) hbottom,
      undominated_append hstrict fun i hi k hk => (hacross i hi k hk).1]
    unfold joinHalves
    refine congrArg _ (List.filter_congr fun i hi => congrArg _ ?_)
    -- between a candidate of the bottom and one of the top the short test is dominance
    rw [Bool.eq_iff_iff, List.any_eq_true, isDominatedBy_iff]
    refine exists_congr fun k => and_congr_right fun hk => ?_
    rw [Beats, (hacross k (List.mem_of_mem_filter hk) i (List.mem_of_mem_filter hi)).2]

/-! ## The order of the front -/

variable (row) in
/-- **Candidates in stable descending order**: rearranged so that no row precedes a
lexicographically larger one, and candidates whose rows tie stay in the order in which they
are listed. -/
structure IsStablyDescending (candidates sorted : List ι) : Prop where
  /-- The same candidates, each as often. -/
  perm : sorted.Perm candidates
  /-- Whoever precedes is not smaller. -/
  descending : sorted.Pairwise fun i j => (lexDescending (row i) (row j)).isLE
  /-- Those that tie with a candidate are in the order of the list. -/
  ties : ∀ i ∈ candidates, (sorted.filter fun j => (lexDescending (row i) (row j)).isEq)
    = candidates.filter fun j => (lexDescending (row i) (row j)).isEq

/-- The order stays when candidates are left out. -/
theorem IsStablyDescending.filter (h : IsStablyDescending row xs sorted) (p : ι → Bool) :
    IsStablyDescending row (xs.filter p) (sorted.filter p) where
  perm := h.perm.filter p
  descending := h.descending.filter p
  ties i hi := by
    rw [List.filter_comm, h.ties i (List.mem_of_mem_filter hi), List.filter_comm]

/-- Rearranging the dominators changes nothing. -/
theorem isDominatedBy_perm (h : sorted.Perm xs) (i : ι) :
    isDominatedBy row sorted i = isDominatedBy row xs i := by
  rw [Bool.eq_iff_iff, isDominatedBy_iff, isDominatedBy_iff]
  simp only [h.mem_iff]

/-- **The undominated ones of the sorted candidates** are the undominated candidates in
stable descending order. -/
theorem IsStablyDescending.undominated (h : IsStablyDescending row xs sorted) :
    IsStablyDescending row (undominated row xs) (undominated row sorted) := by
  have hsame : Maxima.undominated row sorted
      = sorted.filter fun i => !isDominatedBy row xs i := by
    unfold Maxima.undominated
    simp only [isDominatedBy_perm h.perm]
  rw [hsame]
  exact h.filter _

/-! ## Rows that are compared by grades -/

variable {grade : α → Int}

/-- The candidates are sorted stably. -/
theorem isStablyDescending_descending
    (h : ∀ i ∈ xs, ∀ j ∈ xs, RowsGraded grade (row i) (row j)) :
    IsStablyDescending row xs (descending row xs) where
  perm := stableSort_perm _ xs
  descending := pairwise_descending fun i hi j hj => lexDescending_eq (h i hi j hj)
  ties _ hi := filter_descending (fun i hi j hj => lexDescending_eq (h i hi j hj)) hi

/-- **The filter returns the undominated candidates** in the order of the sort. -/
theorem sortFilter_eq (h : ∀ i ∈ xs, ∀ j ∈ xs, RowsGraded grade (row i) (row j)) :
    sortFilter row xs = undominated row (descending row xs) := by
  have hperm : (descending row xs).Perm xs := stableSort_perm _ xs
  refine keepUndominated_eq_undominated
    ((isStrictOn_of_rowsGraded h).mono hperm.subset) ?_
  exact (isStablyDescending_descending h).descending.imp_of_mem fun hi hj hle =>
    not_dominates_of_lexDescending (h _ (hperm.subset hi) _ (hperm.subset hj)) hle

/-- **Divide and conquer returns the undominated candidates** in the order of the sort. -/
theorem kung_eq (h : ∀ i ∈ xs, ∀ j ∈ xs, RowsGraded grade (row i) (row j))
    (hne : ∀ i ∈ xs, row i ≠ []) : kung row xs = undominated row (descending row xs) := by
  have hperm : (descending row xs).Perm xs := stableSort_perm _ xs
  refine ofSorted_eq_undominated ((isStrictOn_of_rowsGraded h).mono hperm.subset) ?_
  exact (isStablyDescending_descending h).descending.imp_of_mem fun hi hj hle =>
    not_beats_and_isDominatedFromAbove_eq h hne (hperm.subset hi) (hperm.subset hj) hle

end Maxima

/-! ## On binary64 patterns -/

open Binary64 in
/-- **Candidates whose values the tolerance does not confuse**: candidates of the matrix,
whose rows have equally many objectives and at least one, with finite values that are, in
each objective, the same number or not equal up to the tolerance, and not both zeros. Rows
of other candidates may hold anything. -/
structure FitnessMatrix.IsSeparatedOn (m : FitnessMatrix Binary64) (candidates : List Nat) :
    Prop where
  /-- Every candidate has a row. -/
  lt_size : ∀ i ∈ candidates, i < m.size
  /-- Every row has an objective. -/
  row_ne_nil : ∀ i ∈ candidates, m.row i ≠ []
  /-- All values are finite. -/
  isFinite : ∀ i ∈ candidates, ∀ x ∈ m.row i, x.IsFinite
  /-- Any two rows are equally long, and their values are told apart. -/
  toldApart : ∀ i ∈ candidates, ∀ j ∈ candidates, List.Forall₂ ToldApart (m.row i) (m.row j)

/-- The rows are compared by their grades. -/
theorem FitnessMatrix.IsSeparatedOn.rowsGraded {m : FitnessMatrix Binary64}
    {candidates : List Nat} (h : m.IsSeparatedOn candidates) :
    ∀ i ∈ candidates, ∀ j ∈ candidates, RowsGraded Binary64.grade (m.row i) (m.row j) :=
  fun i hi j hj => Binary64.rowsGraded_of_toldApart (h.isFinite i hi) (h.isFinite j hj)
    (h.toldApart i hi j hj) (h.toldApart j hj i hi)

/-- **Divide and conquer and the filter return the same list**, where the tolerance does not
confuse the values of the candidates: those that no candidate dominates, as often as they
are listed, in stable descending order. -/
theorem find_kung_and_sortFilter {m : FitnessMatrix Binary64} {candidates : List Nat}
    (h : m.IsSeparatedOn candidates) :
    ∃ front, Finder.kung.find m candidates = .ok front
      ∧ Finder.sortFilter.find m candidates = .ok front
      ∧ Maxima.IsStablyDescending m.row (Maxima.undominated m.row candidates) front := by
  have hkung : Finder.kung.isDefinedOn m candidates := by
    refine Bool.or_eq_true_iff.2 (Or.inr ?_)
    simpa using fun i hi => ⟨h.lt_size i hi, h.row_ne_nil i hi⟩
  have hfilter : Finder.sortFilter.isDefinedOn m candidates := by
    refine Bool.or_eq_true_iff.2 (Or.inr ?_)
    simpa using h.lt_size
  refine ⟨Maxima.undominated m.row (Maxima.descending m.row candidates), ?_, ?_, ?_⟩
  · rw [Finder.find, if_pos hkung, Finder.run, Maxima.kung_eq h.rowsGraded h.row_ne_nil]
  · rw [Finder.find, if_pos hfilter, Finder.run, Maxima.sortFilter_eq h.rowsGraded]
  · exact (Maxima.isStablyDescending_descending h.rowsGraded).undominated

/-- Candidates listed twice, rows that tie as a whole or in one objective, a dominated row,
and a row that is not listed and holds an infinite value. -/
def tiedRows : FitnessMatrix Binary64 :=
  let one : Binary64 := ⟨0x3ff0000000000000⟩
  let two : Binary64 := ⟨0x4000000000000000⟩
  let three : Binary64 := ⟨0x4008000000000000⟩
  #[[one, two], [two, one], [one, one], [Scalar.infinity, one], [one, two], [three, .negZero]]

/-- Both return the rows `3 0`, `2 1` and `1 2`, the last one four times in the order of the
list. -/
theorem find_tiedRows :
    tiedRows.IsSeparatedOn [4, 2, 0, 1, 5, 4, 0]
      ∧ Finder.kung.find tiedRows [4, 2, 0, 1, 5, 4, 0] = .ok [5, 1, 4, 0, 4, 0]
      ∧ Finder.sortFilter.find tiedRows [4, 2, 0, 1, 5, 4, 0] = .ok [5, 1, 4, 0, 4, 0] := by
  have hseparated : tiedRows.IsSeparatedOn [4, 2, 0, 1, 5, 4, 0] :=
    { lt_size := by decide +kernel
      row_ne_nil := by decide +kernel
      isFinite := by decide +kernel
      toldApart := by decide +kernel }
  obtain ⟨front, hkung, hfilter, -⟩ := find_kung_and_sortFilter hseparated
  have hfront : Finder.kung.find tiedRows [4, 2, 0, 1, 5, 4, 0] = .ok [5, 1, 4, 0, 4, 0] := by
    decide +kernel
  refine ⟨hseparated, hfront, ?_⟩
  rw [hfilter, ← hkung, hfront]

end ParetoSelection
