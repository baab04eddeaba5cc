import Mathlib.Data.List.Induction
import Mathlib.Data.List.Perm.Subperm
import Mathlib.Logic.Relation
import ParetoSelection.Maxima.Finder

/-!
# What a front finder finds

Two things can be said of a finder. Whatever the numbers are, NaN included, it
returns some of the candidates it was given, none of them more often than it
was given them, and it returns at least one (`IsSelection`). This is all that
peeling needs to place everybody.

The other one is that it returns the *front* (`IsFrontOf`): nothing dominates a
member, and a member dominates everything else. This takes dominance to be a
strict order among the candidates (`IsStrictOn`). Transitivity is what the
finders save their comparisons by: what is dominated by a candidate that was
dropped is dominated by the one that the dropping was for.
-/

namespace ParetoSelection

variable {α ι : Type} [Scalar α]

/-- **Some of the candidates**, and at least one if there is one. -/
structure IsSelection (candidates selected : List ι) : Prop where
  /-- Every member is a candidate, and listed no more often. -/
  subperm : selected.Subperm candidates
  /-- There is a member if there is a candidate. -/
  ne_nil : candidates ≠ [] → selected ≠ []

/-- **The front of some candidates** under a relation of dominance. -/
structure IsFrontOf (D : ι → ι → Prop) (candidates front : List ι) : Prop where
  /-- Every member is a candidate, and listed no more often. -/
  subperm : front.Subperm candidates
  /-- No candidate dominates a member. -/
  not_dominated : ∀ i ∈ front, ∀ k ∈ candidates, ¬ D k i
  /-- Every other candidate is dominated by a member. -/
  covered : ∀ k ∈ candidates, k ∈ front ∨ ∃ i ∈ front, D i k

/-- **A strict order among some candidates**. -/
structure IsStrictOn (D : ι → ι → Prop) (candidates : List ι) : Prop where
  /-- No candidate dominates itself. -/
  irrefl : ∀ a ∈ candidates, ¬ D a a
  /-- What a candidate dominates by way of another, it dominates. -/
  trans : ∀ a ∈ candidates, ∀ b ∈ candidates, ∀ c ∈ candidates, D a b → D b c → D a c

/-- A strict order is one among fewer candidates. -/
theorem IsStrictOn.mono {D : ι → ι → Prop} {xs ys : List ι} (h : IsStrictOn D ys) (hsub : xs ⊆ ys) :
    IsStrictOn D xs where
  irrefl a ha := h.irrefl a (hsub ha)
  trans a ha b hb c hc := h.trans a (hsub ha) b (hsub hb) c (hsub hc)

/-- **A strict order has no cycle**, if it relates only the candidates. -/
theorem IsStrictOn.acyclic {D : ι → ι → Prop} {xs : List ι} (h : IsStrictOn D xs)
    (hD : ∀ a b, D a b → a ∈ xs ∧ b ∈ xs) (c : ι) : ¬ Relation.TransGen D c c := by
  have hstep {a b : ι} (hab : Relation.TransGen D a b) : D a b := by
    induction hab with
    | single hab => exact hab
    | tail _ hbc ih =>
      exact h.trans _ (hD _ _ ih).1 _ (hD _ _ ih).2 _ (hD _ _ hbc).2 ih hbc
  intro hcc
  exact h.irrefl c (hD c c (hstep hcc)).1 (hstep hcc)

namespace IsFrontOf

variable {D : ι → ι → Prop} {candidates front : List ι}

/-- A front is a selection: where nothing is a member, nothing is covered. -/
theorem isSelection (h : IsFrontOf D candidates front) : IsSelection candidates front where
  subperm := h.subperm
  ne_nil := by
    rintro hne rfl
    obtain ⟨k, hk⟩ := List.exists_mem_of_ne_nil _ hne
    rcases h.covered k hk with hmem | ⟨i, hmem, -⟩
    · exact List.not_mem_nil hmem
    · exact List.not_mem_nil hmem

/-- The front is who is not dominated. -/
theorem mem_iff (h : IsFrontOf D candidates front) (i : ι) :
    i ∈ front ↔ i ∈ candidates ∧ ∀ k ∈ candidates, ¬ D k i := by
  constructor
  · exact fun hi => ⟨h.subperm.subset hi, h.not_dominated i hi⟩
  · rintro ⟨hi, hnone⟩
    refine (h.covered i hi).resolve_right ?_
    rintro ⟨k, hk, hki⟩
    exact hnone k (h.subperm.subset hk) hki

/-- The front does not depend on the order of the candidates. -/
theorem of_perm {candidates' : List ι} (h : IsFrontOf D candidates front)
    (hperm : candidates.Perm candidates') : IsFrontOf D candidates' front where
  subperm := h.subperm.trans hperm.subperm
  not_dominated i hi k hk := h.not_dominated i hi k (hperm.mem_iff.2 hk)
  covered k hk := h.covered k (hperm.mem_iff.2 hk)

/-- The front depends only on who dominates whom among the candidates. -/
theorem congr {D' : ι → ι → Prop} (h : IsFrontOf D candidates front)
    (hD : ∀ i ∈ candidates, ∀ j ∈ candidates, D i j ↔ D' i j) :
    IsFrontOf D' candidates front where
  subperm := h.subperm
  not_dominated i hi k hk := (not_congr (hD k hk i (h.subperm.subset hi))).1
    (h.not_dominated i hi k hk)
  covered k hk := (h.covered k hk).imp id fun ⟨i, hi, hik⟩ =>
    ⟨i, hi, (hD i (h.subperm.subset hi) k hk).1 hik⟩

/-- Whom a candidate dominates, a member of the front does. -/
theorem exists_beats {all : List ι} (h : IsFrontOf D candidates front) (hstrict : IsStrictOn D all)
    (hsub : candidates ⊆ all) {k i : ι} (hk : k ∈ candidates) (hi : i ∈ all) (hki : D k i) :
    ∃ u ∈ front, D u i := by
  obtain hmem | ⟨u, hu, huk⟩ := h.covered k hk
  · exact ⟨k, hmem, hki⟩
  · have hua : u ∈ all := hsub (h.subperm.subset hu)
    exact ⟨u, hu, hstrict.trans u hua k (hsub hk) i hi huk hki⟩

/-- **Two fronts make one** if nobody below dominates anybody above: all of the
upper one, and of the lower one those whom no upper member dominates. -/
theorem append {xs ys upper lower kept : List ι} (hupper : IsFrontOf D xs upper)
    (hlower : IsFrontOf D ys lower) (hstrict : IsStrictOn D (xs ++ ys))
    (hacross : ∀ i ∈ xs, ∀ k ∈ ys, ¬ D k i) (hsub : kept.Sublist lower)
    (hkept : ∀ i ∈ lower, i ∈ kept ↔ ∀ u ∈ upper, ¬ D u i) :
    IsFrontOf D (xs ++ ys) (upper ++ kept) where
  subperm := hupper.subperm.append (hsub.subperm.trans hlower.subperm)
  not_dominated i hi k hk hki := by
    obtain hi | hi := List.mem_append.1 hi
    · obtain hk | hk := List.mem_append.1 hk
      · exact hupper.not_dominated i hi k hk hki
      · exact hacross i (hupper.subperm.subset hi) k hk hki
    · have hil : i ∈ lower := hsub.subset hi
      have hiy : i ∈ ys := hlower.subperm.subset hil
      obtain hk | hk := List.mem_append.1 hk
      · obtain ⟨u, hu, hui⟩ := hupper.exists_beats hstrict (List.subset_append_left xs ys) hk
          (List.mem_append_right xs hiy) hki
        exact (hkept i hil).1 hi u hu hui
      · exact hlower.not_dominated i hil k hk hki
  covered k hk := by
    -- who is not kept of the lower front is dominated by an upper member
    have hlost (i : ι) (hi : i ∈ lower) : i ∈ kept ∨ ∃ u ∈ upper, D u i := by
      by_cases hbeaten : ∃ u ∈ upper, D u i
      · exact Or.inr hbeaten
      · exact Or.inl ((hkept i hi).2 fun u hu hui => hbeaten ⟨u, hu, hui⟩)
    obtain hk | hk := List.mem_append.1 hk
    · obtain hku | ⟨u, hu, huk⟩ := hupper.covered k hk
      · exact Or.inl (List.mem_append_left kept hku)
      · exact Or.inr ⟨u, List.mem_append_left kept hu, huk⟩
    · obtain hkl | ⟨i, hi, hik⟩ := hlower.covered k hk
      · obtain hmem | ⟨u, hu, huk⟩ := hlost k hkl
        · exact Or.inl (List.mem_append_right upper hmem)
        · exact Or.inr ⟨u, List.mem_append_left kept hu, huk⟩
      · obtain hmem | ⟨u, hu, hui⟩ := hlost i hi
        · exact Or.inr ⟨i, List.mem_append_right upper hmem, hik⟩
        · have hux := List.mem_append_left ys (hupper.subperm.subset hu)
          have hiy := List.mem_append_right xs (hlower.subperm.subset hi)
          have huk := hstrict.trans u hux i hiy k (List.mem_append_right xs hk) hui hik
          exact Or.inr ⟨u, List.mem_append_left kept hu, huk⟩

/-- **A candidate in front of a front** makes a front, if everybody else is
dominated by it or is among the rest, and none of the rest compares with it. -/
theorem cons {all rest : List ι} {best : ι} (h : IsFrontOf D rest front)
    (hstrict : IsStrictOn D all) (hsub : (best :: rest).Subperm all)
    (hall : ∀ k ∈ all, k = best ∨ D best k ∨ k ∈ rest)
    (hrest : ∀ k ∈ rest, ¬ D best k ∧ ¬ D k best) : IsFrontOf D all (best :: front) where
  subperm := ((List.subperm_cons best).2 h.subperm).trans hsub
  not_dominated i hi k hk hki := by
    have hbest : best ∈ all := hsub.subset List.mem_cons_self
    obtain rfl | hi := List.mem_cons.1 hi
    · obtain rfl | hbk | hk' := hall k hk
      · exact hstrict.irrefl k hbest hki
      · exact hstrict.irrefl i hbest (hstrict.trans i hbest k hk i hbest hbk hki)
      · exact (hrest k hk').2 hki
    · have hir : i ∈ rest := h.subperm.subset hi
      have hia : i ∈ all := hsub.subset (List.mem_cons_of_mem best hir)
      obtain rfl | hbk | hk' := hall k hk
      · exact (hrest i hir).1 hki
      · exact (hrest i hir).1 (hstrict.trans best hbest k hk i hia hbk hki)
      · exact h.not_dominated i hi k hk' hki
  covered k hk := by
    obtain rfl | hbk | hk' := hall k hk
    · exact Or.inl List.mem_cons_self
    · exact Or.inr ⟨best, List.mem_cons_self, hbk⟩
    · obtain hmem | ⟨i, hi, hik⟩ := h.covered k hk'
      · exact Or.inl (List.mem_cons_of_mem best hmem)
      · exact Or.inr ⟨i, List.mem_cons_of_mem best hi, hik⟩

end IsFrontOf

namespace Maxima

variable (row : ι → List α)

/-- **Candidate `k` dominates candidate `i`.** -/
def Beats (k i : ι) : Prop :=
  dominates (row k) (row i) = true

/-! ## Divide and conquer -/

/-- Joining keeps the upper front as a whole and some of the lower one. -/
theorem joinHalves_sublist (upper lower : List ι) :
    (joinHalves row upper lower).Sublist (upper ++ lower) :=
  (List.append_sublist_append_left upper).2 List.filter_sublist

/-- The front of a sorted list leaves some of the list out. -/
theorem ofSorted_sublist (sorted : List ι) : (ofSorted row sorted).Sublist sorted := by
  fun_induction ofSorted row sorted with
  | case1 sorted h => exact List.Sublist.refl _
  | case2 sorted h half ihu ihl =>
    refine (joinHalves_sublist row _ _).trans ?_
    conv_rhs => rw [← List.take_append_drop half sorted]
    exact ihu.append ihl

/-- The first of a sorted list is in its front. -/
theorem ofSorted_ne_nil {sorted : List ι} (hne : sorted ≠ []) : ofSorted row sorted ≠ [] := by
  fun_induction ofSorted row sorted with
  | case1 sorted h => exact hne
  | case2 sorted h half ihu ihl =>
    have htake : sorted.take half ≠ [] := by
      rw [ne_eq, List.take_eq_nil_iff, not_or]
      exact ⟨by omega, hne⟩
    exact List.append_ne_nil_of_left_ne_nil (ihu htake) _

/-- Divide and conquer selects, whatever the numbers. -/
theorem isSelection_kung (candidates : List ι) : IsSelection candidates (kung row candidates) where
  subperm := (ofSorted_sublist row _).subperm.trans (stableSort_perm _ candidates).subperm
  ne_nil hne := by
    refine ofSorted_ne_nil row fun hnil => hne ?_
    have hperm : (descending row candidates).Perm candidates := stableSort_perm _ candidates
    rw [hnil] at hperm
    exact hperm.nil_eq.symm

/-- **Where no candidate dominates an earlier one**, and the short test is the test
for dominance, divide and conquer finds the front. -/
theorem isFrontOf_ofSorted {D : ι → ι → Prop} {sorted : List ι} (hstrict : IsStrictOn D sorted)
    (hsorted : sorted.Pairwise fun i j => ¬ D j i
      ∧ (isDominatedFromAbove (row j) (row i) = true ↔ D i j)) :
    IsFrontOf D sorted (ofSorted row sorted) := by
  fun_induction ofSorted row sorted with
  | case1 sorted h =>
    refine ⟨List.Subperm.refl _, fun i hi k hk => ?_, fun k hk => Or.inl hk⟩
    obtain ⟨x, rfl⟩ : ∃ x, sorted = [x] :=
      List.length_eq_one_iff.1 (Nat.le_antisymm h (List.length_pos_of_mem hi))
    rw [List.mem_singleton.1 hi, List.mem_singleton.1 hk]
    exact hstrict.irrefl x (List.mem_singleton_self x)
  | case2 sorted h half ihu ihl =>
    have hsplit := List.take_append_drop half sorted
    rw [← hsplit, List.pairwise_append] at hsorted
    obtain ⟨hpu, hpl, hacross⟩ := hsorted
    have hupper := ihu (hstrict.mono (List.take_subset half sorted)) hpu
    have hlower := ihl (hstrict.mono (List.drop_subset half sorted)) hpl
    rw [← hsplit] at hstrict
    have hjoined : IsFrontOf D (sorted.take half ++ sorted.drop half)
        (joinHalves row (ofSorted row (sorted.take half)) (ofSorted row (sorted.drop half))) := by
      refine hupper.append hlower hstrict (fun i hi k hk => (hacross i hi k hk).1)
        List.filter_sublist fun i hi => ?_
      rw [List.mem_filter, and_iff_right hi, Bool.not_eq_true', List.any_eq_false]
      refine forall₂_congr fun u hu => not_congr ?_
      exact (hacross u (hupper.subperm.subset hu) i (hlower.subperm.subset hi)).2
    rwa [hsplit] at hjoined

/-! ## Elimination -/

/-- Filling a gap from the back rearranges. -/
theorem refill_perm (unseen : List ι) : (refill unseen).Perm unseen := by
  cases unseen using List.reverseRecOn with
  | nil => exact List.Perm.refl _
  | append_singleton xs x =>
    unfold refill
    rw [List.getLast?_append, List.dropLast_concat]
    show ([x] ++ xs).Perm (xs ++ [x])
    exact List.perm_append_comm

/-- Filling a gap from the front rearranges. -/
theorem firstToBack_perm (passed : List ι) : (firstToBack passed).Perm passed := by
  cases passed with
  | nil => exact List.Perm.refl _
  | cons x xs =>
    show (xs ++ [x]).Perm ([x] ++ xs)
    exact List.perm_append_comm

/-- The candidates that a pass has not dropped, before it looks at the rest. -/
def Pass.passed (p : Pass ι) : List ι :=
  p.best :: (p.earlier ++ p.later)

/-- **A pass drops candidates and gains none.** -/
theorem Pass.passed_run_subperm (p : Pass ι) (unseen : List ι) :
    (p.run row unseen).passed.Subperm (p.passed ++ unseen) := by
  fun_induction Pass.run row p unseen with
  | case1 p =>
    rw [List.append_nil]
  | case2 p i unseen hcmp ih =>
    refine ih.trans ((List.subperm_append_left _).2 ?_)
    exact (refill_perm unseen).subperm.trans (List.sublist_cons_self i unseen).subperm
  | case3 p i unseen hcmp ih =>
    refine ih.trans ?_
    have hpassed : (firstToBack p.earlier ++ p.later).Perm (p.earlier ++ p.later) :=
      (firstToBack_perm p.earlier).append_right _
    show (i :: ((firstToBack p.earlier ++ p.later) ++ []) ++ unseen).Subperm
      (p.best :: (p.earlier ++ p.later) ++ i :: unseen)
    rw [List.append_nil]
    refine (((hpassed.append_right unseen).cons i).trans List.perm_middle.symm).subperm.trans ?_
    exact (List.sublist_cons_self _ _).subperm
  | case4 p i unseen hcmp ih =>
    refine ih.trans (List.Perm.subperm ?_)
    show (p.best :: (p.earlier ++ (p.later ++ [i])) ++ unseen).Perm
      (p.best :: (p.earlier ++ p.later) ++ i :: unseen)
    rw [← List.append_assoc p.earlier, ← List.cons_append, List.append_assoc _ [i]]
    exact List.Perm.refl _

/-- A sweep keeps, up to the order, those that the best does not dominate. -/
theorem Pass.sweep_subperm (p : Pass ι) : (p.sweep row).Subperm p.earlier := by
  have key (xs kept : List ι) : (xs.foldl (fun kept i =>
      if dominates (row p.best) (row i) then firstToBack kept else kept ++ [i]) kept).Subperm
        (kept ++ xs) := by
    induction xs generalizing kept with
    | nil =>
      rw [List.append_nil]
      exact List.Subperm.refl _
    | cons i xs ih =>
      rw [List.foldl_cons]
      refine (ih _).trans ?_
      split
      · refine ((firstToBack_perm kept).append_right xs).subperm.trans ?_
        exact ((List.append_sublist_append_left kept).2 (List.sublist_cons_self i xs)).subperm
      · rw [List.append_assoc, List.singleton_append]
  exact key p.earlier []

/-- The best of a pass and what is left for the next are some of the
candidates. -/
theorem Pass.rest_subperm (i : ι) (unseen : List ι) :
    ((Pass.run row ⟨[], i, []⟩ unseen).best :: (Pass.run row ⟨[], i, []⟩ unseen).rest row).Subperm
      (i :: unseen) := by
  have hrun := Pass.passed_run_subperm row ⟨[], i, []⟩ unseen
  refine List.Subperm.trans ?_ hrun
  exact (List.subperm_cons _).2
    ((Pass.sweep_subperm row _).append (refill_perm _).subperm)

/-- Elimination selects, whatever the numbers. -/
theorem isSelection_best (candidates : List ι) :
    IsSelection candidates (best row candidates) where
  subperm := by
    fun_induction best row candidates with
    | case1 => exact List.Subperm.refl _
    | case2 i unseen pass ih =>
      exact ((List.subperm_cons _).2 ih).trans (Pass.rest_subperm row i unseen)
  ne_nil := by
    intro hne
    cases candidates with
    | nil => exact absurd rfl hne
    | cons i unseen =>
      rw [best]
      exact List.cons_ne_nil _ _

/-- **What holds during a pass** over the candidates `all`: whoever was dropped
is dominated by the best, and the best has been compared with everybody who was
passed since it became the best. -/
structure Pass.IsExact (all : List ι) (p : Pass ι) (unseen : List ι) : Prop where
  /-- The pass has to do with candidates only. -/
  subset : p.passed ++ unseen ⊆ all
  /-- Whoever is no longer there is dominated by the best. -/
  covered : ∀ k ∈ all, k ∈ p.passed ++ unseen ∨ Beats row p.best k
  /-- Nobody passed before dominates the best. -/
  earlier : ∀ k ∈ p.earlier, ¬ Beats row k p.best
  /-- Nobody passed since dominates the best or is dominated by it. -/
  later : ∀ k ∈ p.later, ¬ Beats row k p.best ∧ ¬ Beats row p.best k

variable {row} {all : List ι}

/-- The candidates still there, one by one. -/
theorem Pass.mem_passed_append {p : Pass ι} {unseen : List ι} {k : ι} :
    k ∈ p.passed ++ unseen ↔ k = p.best ∨ k ∈ p.earlier ∨ k ∈ p.later ∨ k ∈ unseen := by
  rw [passed, List.mem_append, List.mem_cons, List.mem_append]
  tauto

/-- **A pass stays exact** where the best dominates the next candidate, which
is dropped. -/
theorem Pass.IsExact.drop {p : Pass ι} {i : ι} {unseen : List ι}
    (h : p.IsExact row all (i :: unseen)) (hbeaten : Beats row p.best i) :
    p.IsExact row all (refill unseen) := by
  refine ⟨fun k hk => h.subset ?_, fun k hk => ?_, h.earlier, h.later⟩
  · rw [mem_passed_append, (refill_perm unseen).mem_iff] at hk
    rw [mem_passed_append, List.mem_cons]
    tauto
  · have hk := h.covered k hk
    rw [mem_passed_append, List.mem_cons] at hk
    rw [mem_passed_append, (refill_perm unseen).mem_iff]
    obtain (hk | hk | hk | rfl | hk) | hk := hk
    · exact Or.inl (Or.inl hk)
    · exact Or.inl (Or.inr (Or.inl hk))
    · exact Or.inl (Or.inr (Or.inr (Or.inl hk)))
    · exact Or.inr hbeaten
    · exact Or.inl (Or.inr (Or.inr (Or.inr hk)))
    · exact Or.inr hk

/-- **A pass stays exact** where the next candidate dominates the best and
takes its place. -/
theorem Pass.IsExact.replace {p : Pass ι} {i : ι} {unseen : List ι}
    (h : p.IsExact row all (i :: unseen)) (hstrict : IsStrictOn (Beats row) all)
    (hbeats : Beats row i p.best) :
    (Pass.mk (firstToBack p.earlier ++ p.later) i []).IsExact row all unseen := by
  have hbest : p.best ∈ all := h.subset (mem_passed_append.2 (Or.inl rfl))
  have hi : i ∈ all := h.subset (mem_passed_append.2
    (Or.inr (Or.inr (Or.inr List.mem_cons_self))))
  have hpassed (k : ι) : k ∈ firstToBack p.earlier ++ p.later ↔ k ∈ p.earlier ∨ k ∈ p.later := by
    rw [List.mem_append, (firstToBack_perm _).mem_iff]
  refine ⟨fun k hk => h.subset ?_, fun k hk => ?_, fun k hk hki => ?_, fun k hk => ?_⟩
  · rw [mem_passed_append] at hk ⊢
    rw [hpassed] at hk
    rw [List.mem_cons]
    have hnil : k ∉ ([] : List ι) := List.not_mem_nil
    tauto
  · have hk' := h.covered k hk
    rw [mem_passed_append, List.mem_cons] at hk'
    rw [mem_passed_append, hpassed]
    obtain (rfl | hk' | hk' | rfl | hk') | hk' := hk'
    · exact Or.inr hbeats
    · exact Or.inl (Or.inr (Or.inl (Or.inl hk')))
    · exact Or.inl (Or.inr (Or.inl (Or.inr hk')))
    · exact Or.inl (Or.inl rfl)
    · exact Or.inl (Or.inr (Or.inr (Or.inr hk')))
    · exact Or.inr (hstrict.trans i hi _ hbest k hk hbeats hk')
  · -- whoever dominates `i` would have dominated the best before
    have hk' := (hpassed k).1 hk
    have hkall : k ∈ all := h.subset (mem_passed_append.2 (by tauto))
    have hkbest : Beats row k p.best := hstrict.trans k hkall i hi _ hbest hki hbeats
    obtain hk' | hk' := hk'
    · exact h.earlier k hk' hkbest
    · exact (h.later k hk').1 hkbest
  · exact absurd hk List.not_mem_nil

/-- **A pass stays exact** where neither dominates the other and the next
candidate is passed. -/
theorem Pass.IsExact.keep {p : Pass ι} {i : ι} {unseen : List ι}
    (h : p.IsExact row all (i :: unseen)) (hnot : ¬ Beats row i p.best)
    (hnot' : ¬ Beats row p.best i) :
    (Pass.mk p.earlier p.best (p.later ++ [i])).IsExact row all unseen := by
  have hmem (k : ι) : k ∈ (Pass.mk p.earlier p.best (p.later ++ [i])).passed ++ unseen
      ↔ k ∈ p.passed ++ i :: unseen := by
    rw [mem_passed_append, mem_passed_append, List.mem_append, List.mem_singleton, List.mem_cons]
    tauto
  refine ⟨fun k hk => h.subset ((hmem k).1 hk), fun k hk => ?_, h.earlier, fun k hk => ?_⟩
  · rw [hmem]
    exact h.covered k hk
  · obtain hk | hk := List.mem_append.1 hk
    · exact h.later k hk
    · obtain rfl := List.mem_singleton.1 hk
      exact ⟨hnot, hnot'⟩

/-- **A whole pass stays exact.** -/
theorem Pass.isExact_run (hstrict : IsStrictOn (Beats row) all)
    (hright : ∀ i ∈ all, ∀ k ∈ all,
      Dominance.compare (row i) (row k) = .right ↔ Beats row k i)
    {p : Pass ι} {unseen : List ι} (h : p.IsExact row all unseen) :
    (p.run row unseen).IsExact row all [] := by
  fun_induction Pass.run row p unseen with
  | case1 p => exact h
  | case2 p i unseen hcmp ih => exact ih (h.drop (decide_eq_true hcmp))
  | case3 p i unseen hcmp ih =>
    have hbest : p.best ∈ all := h.subset (mem_passed_append.2 (Or.inl rfl))
    have hi : i ∈ all := h.subset (mem_passed_append.2
      (Or.inr (Or.inr (Or.inr List.mem_cons_self))))
    exact ih (h.replace hstrict ((hright _ hbest i hi).1 hcmp))
  | case4 p i unseen hcmp ih =>
    have hbest : p.best ∈ all := h.subset (mem_passed_append.2 (Or.inl rfl))
    have hi : i ∈ all := h.subset (mem_passed_append.2
      (Or.inr (Or.inr (Or.inr List.mem_cons_self))))
    refine ih (h.keep (fun hbeats => ?_) fun hbeats => ?_)
    · rw [(hright _ hbest i hi).2 hbeats] at hcmp
      exact Dominance.noConfusion hcmp
    · rw [of_decide_eq_true hbeats] at hcmp
      exact Dominance.noConfusion hcmp

/-- A sweep keeps exactly those that the best does not dominate. -/
theorem Pass.mem_sweep (p : Pass ι) (k : ι) :
    k ∈ p.sweep row ↔ k ∈ p.earlier ∧ ¬ Beats row p.best k := by
  have key (xs kept : List ι) : k ∈ xs.foldl (fun kept i =>
      if dominates (row p.best) (row i) then firstToBack kept else kept ++ [i]) kept
        ↔ k ∈ kept ∨ k ∈ xs ∧ ¬ Beats row p.best k := by
    induction xs generalizing kept with
    | nil => simp
    | cons i xs ih =>
      rw [List.foldl_cons, ih, List.mem_cons]
      split
      · rename_i hbeaten
        rw [(firstToBack_perm kept).mem_iff]
        constructor
        · tauto
        · rintro (hk | ⟨rfl | hk, hnot⟩)
          · exact Or.inl hk
          · exact absurd hbeaten hnot
          · exact Or.inr ⟨hk, hnot⟩
      · rename_i hkept
        rw [List.mem_append, List.mem_singleton]
        constructor
        · rintro ((hk | rfl) | hk)
          · exact Or.inl hk
          · exact Or.inr ⟨Or.inl rfl, hkept⟩
          · exact Or.inr ⟨Or.inr hk.1, hk.2⟩
        · tauto
  have h := key p.earlier []
  rwa [or_iff_right List.not_mem_nil] at h

/-- **Elimination finds the front.** -/
theorem isFrontOf_best {candidates : List ι} (hstrict : IsStrictOn (Beats row) candidates)
    (hright : ∀ i ∈ candidates, ∀ k ∈ candidates,
      Dominance.compare (row i) (row k) = .right ↔ Beats row k i) :
    IsFrontOf (Beats row) candidates (best row candidates) := by
  fun_induction best row candidates with
  | case1 =>
    refine ⟨List.Subperm.refl _, fun i hi => ?_, fun k hk => ?_⟩
    · exact absurd hi List.not_mem_nil
    · exact absurd hk List.not_mem_nil
  | case2 i unseen pass ih =>
    have hstart : (Pass.mk [] i []).IsExact row (i :: unseen) unseen :=
      ⟨fun k hk => hk, fun k hk => Or.inl hk, fun k hk => absurd hk List.not_mem_nil,
        fun k hk => absurd hk List.not_mem_nil⟩
    have hpass : pass.IsExact row (i :: unseen) [] := Pass.isExact_run hstrict hright hstart
    have hsub := Pass.rest_subperm row i unseen
    have hsubset : pass.rest row ⊆ i :: unseen := fun k hk =>
      hsub.subset (List.mem_cons_of_mem _ hk)
    have hrest (k : ι) : k ∈ pass.rest row
        ↔ (k ∈ pass.earlier ∧ ¬ Beats row pass.best k) ∨ k ∈ pass.later := by
      rw [Pass.rest, List.mem_append, Pass.mem_sweep, (refill_perm _).mem_iff]
    have hfront := ih (hstrict.mono hsubset) fun j hj k hk =>
      hright j (hsubset hj) k (hsubset hk)
    refine hfront.cons hstrict hsub (fun k hk => ?_) fun k hk => ?_
    · -- everybody is the best, dominated by it, or left for the next pass
      have hk := hpass.covered k hk
      rw [Pass.mem_passed_append] at hk
      rw [hrest]
      have hnil : k ∉ ([] : List ι) := List.not_mem_nil
      tauto
    · obtain hk | hk := (hrest k).1 hk
      · exact ⟨hk.2, hpass.earlier k hk.1⟩
      · exact (hpass.later k hk).symm

end Maxima

end ParetoSelection
