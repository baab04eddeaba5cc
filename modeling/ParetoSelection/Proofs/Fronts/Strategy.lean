import ParetoSelection.Proofs.Fronts.Pairwise
import ParetoSelection.Proofs.Fronts.Rounds
import ParetoSelection.Proofs.Maxima.Checked
import ParetoSelection.Proofs.Maxima.Selection

/-!
# What every strategy does

A ranking strategy ranks all candidates of a matrix and nothing else. A strategy that peels
gives a ranking exactly where the rounds of peeling come to an end
(`checkedRank_eq_ok_iff`), and this they do where every row has an objective and the finder
selects: it never reads past the end of a row, and the ranking is the one of `rankWith`
(`checkedRank_eq_ok_of_isSelection`).

Whether it places everybody depends on the strategy: divide and conquer and elimination
always do, counting dominators does where dominance has no cycle (`isPartition_rankWith`).
-/

namespace ParetoSelection

variable {α : Type} [Scalar α] {m : FitnessMatrix α} {strategy : Strategy}

/-- A ranking ranks the candidates there are. -/
@[simp]
theorem size_rankWith (m : FitnessMatrix α) (strategy : Strategy) :
    (m.rankWith strategy).size = m.size := by
  unfold FitnessMatrix.rankWith
  split
  · exact Pairwise.size_pairwiseFronts m
  · rfl

omit [Scalar α] in
/-- Candidates of a matrix whose rows all have an objective can be read. -/
theorem isDefinedOn_of_lt (h : ∀ i < m.size, m.row i ≠ []) {candidates : List Nat}
    (hlt : ∀ i ∈ candidates, i < m.size) (finder : Finder) :
    finder.isDefinedOn m candidates = true := by
  have hall : candidates.all (fun i => i < m.size) = true :=
    List.all_eq_true.2 fun i hi => decide_eq_true (hlt i hi)
  have hread : candidates.all (fun i => i < m.size && !(m.row i).isEmpty) = true := by
    refine List.all_eq_true.2 fun i hi => ?_
    rw [decide_eq_true (hlt i hi), Bool.true_and, Bool.not_eq_true', List.isEmpty_eq_false_iff]
    exact h i (hlt i hi)
  cases finder with
  | oneObjective => exact hread
  | sortFilter => exact Bool.or_eq_true_iff.2 (Or.inr hall)
  | kung => exact Bool.or_eq_true_iff.2 (Or.inr hread)
  | best => exact Bool.or_eq_true_iff.2 (Or.inr hall)

/-- **A strategy that peels gives the ranking that the rounds come to**, and none where they do
not come to an end. -/
theorem checkedRank_eq_ok_iff {finder : Finder} (h : strategy.finder m = some finder)
    {r : RankedFronts} :
    m.checkedRank strategy = .ok r ↔ ∃ t, Peeling.Runs (finder.search m) (.start m.size) t ∧
      r = RankedFronts.ascending ⟨m.size, t.fronts⟩ := by
  unfold FitnessMatrix.checkedRank
  rw [h]
  constructor
  · intro hrank
    obtain ⟨t, hrun, hrank⟩ := exists_of_bind_eq_ok hrank
    cases hrank
    exact ⟨t, Peeling.run_eq_ok_iff.1 hrun, rfl⟩
  · rintro ⟨t, hrun, rfl⟩
    dsimp only
    rw [Peeling.run_eq_ok_iff.2 hrun]
    rfl

/-- A finder does not fail where every row has an objective. -/
theorem search_eq_run (h : ∀ i < m.size, m.row i ≠ []) {candidates : List Nat}
    (hlt : ∀ i ∈ candidates, i < m.size) (finder : Finder) :
    finder.search m candidates = .ok (finder.run m.row candidates) := by
  rw [Finder.search_eq_find, Finder.find, if_pos (isDefinedOn_of_lt h hlt finder)]

/-- **No strategy reads outside the matrix** where every row has an objective, and none peels
for ever where its finder selects. -/
theorem checkedRank_eq_ok_of_isSelection (h : ∀ i < m.size, m.row i ≠ [])
    (hselect : ∀ finder, strategy.finder m = some finder → ∀ xs, xs ⊆ List.range m.size →
      IsSelection xs (finder.run m.row xs)) :
    m.checkedRank strategy = .ok (m.rankWith strategy) := by
  cases hfinder : strategy.finder m with
  | none =>
    unfold FitnessMatrix.checkedRank FitnessMatrix.rankWith
    rw [hfinder]
  | some finder =>
    obtain ⟨t, hruns, -, -, hfronts⟩ := (Peeling.isSound_start m.size).exists_runs fun xs hxs =>
      ⟨search_eq_run h (fun i hi => List.mem_range.1 (hxs hi)) finder,
        hselect finder hfinder xs hxs⟩
    refine (checkedRank_eq_ok_iff hfinder).2 ⟨t, hruns, ?_⟩
    unfold FitnessMatrix.rankWith
    rw [hfinder, hfronts]
    rfl

/-- Over several objectives the finder is one that always selects. -/
theorem isSelection_of_finder_eq (hwidth : m.width ≠ 1) {finder : Finder}
    (hfinder : strategy.finder m = some finder) (xs : List Nat) :
    IsSelection xs (finder.run m.row xs) := by
  refine isSelection_run ?_ m.row xs
  cases strategy with
  | pairwise => cases hfinder
  | kung => exact .inl (Option.some.inj hfinder).symm
  | best => exact .inr (Option.some.inj hfinder).symm
  | auto =>
    have hkung : m.finder = .kung := if_neg hwidth
    exact .inl ((Option.some.inj hfinder).symm.trans hkung)

/-- So every strategy gives a ranking there. -/
theorem checkedRank_eq_ok (h : ∀ i < m.size, m.row i ≠ []) (hwidth : m.width ≠ 1) :
    m.checkedRank strategy = .ok (m.rankWith strategy) :=
  checkedRank_eq_ok_of_isSelection h fun _ hfinder xs _ =>
    isSelection_of_finder_eq hwidth hfinder xs

/-- **Everybody is placed** by every strategy that peels with a finder for
several objectives, and by counting where dominance has no cycle. -/
theorem isPartition_rankWith (hwidth : m.width ≠ 1)
    (hcycle : strategy = .pairwise → m.IsAcyclic) : (m.rankWith strategy).IsPartition := by
  unfold FitnessMatrix.rankWith
  cases hfinder : strategy.finder m with
  | none =>
    have hpairwise : strategy = .pairwise := by
      cases strategy with
      | pairwise => rfl
      | _ => cases hfinder
    exact RankedFronts.isPartition_ascending.2
      (isCanonical_of_isAcyclic (hcycle hpairwise)).isPartition
  | some finder =>
    exact RankedFronts.isPartition_ascending.2
      (isPartition_ofPeeling fun xs _ => isSelection_of_finder_eq hwidth hfinder xs)

/-- No finder returns anybody more often than it is given. -/
theorem subperm_run (finder : Finder) (row : Nat → List α) (xs : List Nat) :
    (finder.run row xs).Subperm xs := by
  cases finder with
  | oneObjective => exact List.filter_sublist.subperm
  | sortFilter => exact (Maxima.isSelection_sortFilter row xs).subperm
  | kung => exact (Maxima.isSelection_kung row xs).subperm
  | best => exact (Maxima.isSelection_best row xs).subperm

/-- **Nobody is placed twice, and nobody who is not a candidate**, by any strategy and whatever
dominance is like. -/
theorem ordered_rankWith_subperm (m : FitnessMatrix α) (strategy : Strategy) :
    (m.rankWith strategy).ordered.Subperm (List.range m.size) := by
  unfold FitnessMatrix.rankWith
  split
  · obtain ⟨hnodup, hmem⟩ := mem_ordered_pairwiseFronts m
    refine (RankedFronts.ordered_ascending_perm _).subperm.trans (hnodup.subperm fun i hi => ?_)
    exact List.mem_range.2 ((hmem i).1 hi).1
  · exact (RankedFronts.ordered_ascending_perm _).subperm.trans
      (flatten_peel_subperm (subperm_run _ m.row) List.nodup_range)

/-- Nobody is placed twice. -/
theorem nodup_ordered_rankWith : (m.rankWith strategy).ordered.Nodup :=
  nodup_of_subperm (ordered_rankWith_subperm m strategy) List.nodup_range

/-- Nobody is placed who is not a candidate. -/
theorem lt_of_mem_ordered_rankWith {i : Nat} (hi : i ∈ (m.rankWith strategy).ordered) :
    i < m.size :=
  List.mem_range.1 ((ordered_rankWith_subperm m strategy).subset hi)

end ParetoSelection
