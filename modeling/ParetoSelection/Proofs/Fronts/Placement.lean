import ParetoSelection.Proofs.Fronts.Strategy

/-!
# Everybody is placed

Peeling places everybody, NaN and infinite values included, and also where dominance goes
round in a circle. No property of dominance has a part in this. It is due to the finders,
each of which returns some of its candidates and at least one (`isSelection_run_of_finite`),
so that every round of peeling makes those who remain fewer.

Two things are asked for. Every row has an objective, since two of the finders read the
first one unseen. And where there is a single objective and the finder for it is used, the
values are finite: among infinite ones or NaN it may find nobody, and peeling with it would
not come to an end.
-/

namespace ParetoSelection

variable {m : FitnessMatrix Binary64} {finder : Finder}

/-- **Every finder selects**, the one for a single objective among finite values. -/
theorem isSelection_run_of_finite {row : Nat → List Binary64} {candidates : List Nat}
    (hfinite : finder = .oneObjective → ∀ i ∈ candidates, (Maxima.firstObjective row i).IsFinite) :
    IsSelection candidates (finder.run row candidates) := by
  cases finder with
  | oneObjective => exact Maxima.isSelection_oneObjective (hfinite rfl)
  | sortFilter => exact Maxima.isSelection_sortFilter row candidates
  | kung => exact Maxima.isSelection_kung row candidates
  | best => exact Maxima.isSelection_best row candidates

/-- The first objective of a row that has one is finite if all are. -/
theorem isFinite_firstObjective {i : Nat} (hne : m.row i ≠ [])
    (hfinite : ∀ x ∈ m.row i, x.IsFinite) : (Maxima.firstObjective m.row i).IsFinite := by
  obtain ⟨x, xs, hrow⟩ := List.exists_cons_of_ne_nil hne
  rw [Maxima.firstObjective, hrow]
  exact hfinite x (hrow ▸ List.mem_cons_self)

/-- **A finder of a matrix does not fail, and selects.** -/
theorem search_eq_ok (hne : ∀ i < m.size, m.row i ≠ []) {candidates : List Nat}
    (hlt : ∀ i ∈ candidates, i < m.size)
    (hfinite : finder = .oneObjective → ∀ i ∈ candidates, ∀ x ∈ m.row i, x.IsFinite) :
    finder.search m candidates = .ok (finder.run m.row candidates) ∧
      IsSelection candidates (finder.run m.row candidates) := by
  exact ⟨search_eq_run hne hlt finder, isSelection_run_of_finite fun hfinder i hi =>
    isFinite_firstObjective (hne i (hlt i hi)) (hfinite hfinder i hi)⟩

/-- **A ranking that came about by peeling in rounds** with a finder, from the state `t` in
which the rounds have come to their end. -/
structure IsPeeledBy (finder : Finder) (m : FitnessMatrix Binary64) (t : Peeling)
    (r : RankedFronts) : Prop where
  /-- The rounds come to an end. -/
  runs : Peeling.Runs (finder.search m) (.start m.size) t
  /-- The fronts are those of the rounds, each in ascending order. -/
  eq_ascending : r = RankedFronts.ascending ⟨m.size, t.fronts⟩
  /-- So are the ranks. -/
  ranks_eq : r.ranks = t.ranks.toList
  /-- Everybody is in exactly one front, the one at their rank, and no front is empty. -/
  isPartition : r.IsPartition
  /-- Each front is in ascending order. -/
  pairwise_lt : ∀ front ∈ r.fronts, front.Pairwise (· < ·)

/-- Peeling with a finder that selects places everybody. -/
theorem exists_isPeeledBy (hne : ∀ i < m.size, m.row i ≠ [])
    (hfinite : finder = .oneObjective → ∀ i < m.size, ∀ x ∈ m.row i, x.IsFinite) :
    ∃ t, IsPeeledBy finder m t (RankedFronts.ofPeeling (finder.run m.row) m.size).ascending := by
  have hsearch (xs : List Nat) (hxs : xs ⊆ List.range m.size) :
      finder.search m xs = .ok (finder.run m.row xs) ∧ IsSelection xs (finder.run m.row xs) :=
    search_eq_ok hne (fun i hi => List.mem_range.1 (hxs hi)) fun hfinder i hi =>
      hfinite hfinder i (List.mem_range.1 (hxs hi))
  obtain ⟨t, hruns, ht, hnone, hfronts⟩ := (Peeling.isSound_start m.size).exists_runs hsearch
  have hpartition : (RankedFronts.ofPeeling (finder.run m.row) m.size).IsPartition :=
    isPartition_ofPeeling fun xs hxs => (hsearch xs hxs).2
  have hpeeled : (⟨m.size, t.fronts⟩ : RankedFronts)
      = RankedFronts.ofPeeling (finder.run m.row) m.size := by
    rw [hfronts]
    rfl
  refine ⟨t, hruns, congrArg _ hpeeled.symm, ?_, RankedFronts.isPartition_ascending.2 hpartition,
    fun front => RankedFronts.pairwise_lt_ascending hpartition.nodup⟩
  rw [← hpeeled] at hpartition ⊢
  have hranks : (RankedFronts.ascending ⟨m.size, t.fronts⟩).ranks
      = (⟨m.size, t.fronts⟩ : RankedFronts).ranks :=
    List.map_congr_left fun i _ => RankedFronts.rank_ascending _ i
  exact hranks.trans (ht.ranks_eq hnone hpartition.nodup)

/-- **Peeling terminates and places everybody**, whatever the values – finite ones are asked
for only where the finder for a single objective is used. And this is so because each finder
returns, of candidates listed once, some of them, at least one, and none twice. -/
theorem isPeeledBy_checkedRank {dim : Nat} (hdim : 1 ≤ dim)
    (hlength : ∀ i < m.size, (m.row i).length = dim) {strategy : Strategy}
    (hstrategy : strategy ≠ .pairwise)
    (hfinite : strategy = .auto → dim = 1 → ∀ i < m.size, ∀ x ∈ m.row i, x.IsFinite) :
    (∃ finder t r, strategy.finder m = some finder ∧ m.checkedRank strategy = .ok r ∧
      r.size = m.size ∧ IsPeeledBy finder m t r) ∧
    ∀ (finder : Finder) (candidates : List Nat), candidates ≠ [] → candidates.Nodup →
      (∀ i ∈ candidates, i < m.size) →
      (finder = .oneObjective → ∀ i ∈ candidates, ∀ x ∈ m.row i, x.IsFinite) →
      ∃ front, finder.search m candidates = .ok front ∧ front ≠ [] ∧ front.Nodup ∧
        front ⊆ candidates := by
  have hne (i : Nat) (hi : i < m.size) : m.row i ≠ [] := by
    rw [← List.length_pos_iff, hlength i hi]
    exact hdim
  constructor
  · obtain ⟨finder, hfinder⟩ : ∃ finder, strategy.finder m = some finder := by
      cases strategy with
      | pairwise => exact absurd rfl hstrategy
      | kung => exact ⟨_, rfl⟩
      | best => exact ⟨_, rfl⟩
      | auto => exact ⟨_, rfl⟩
    have hone (h : finder = .oneObjective) (i : Nat) (hi : i < m.size) :
        ∀ x ∈ m.row i, x.IsFinite := by
      subst h
      -- the first row has one objective, so all have
      have hauto : strategy = .auto ∧ m.width = 1 := by
        cases strategy with
        | pairwise => exact absurd rfl hstrategy
        | kung => cases hfinder
        | best => cases hfinder
        | auto =>
          refine ⟨rfl, ?_⟩
          by_contra hwidth
          rw [Strategy.finder, FitnessMatrix.finder, if_neg hwidth] at hfinder
          cases hfinder
      have hdim' : dim = 1 := (hlength 0 (Nat.zero_lt_of_lt hi)).symm.trans hauto.2
      exact hfinite hauto.1 hdim' i hi
    obtain ⟨t, ht⟩ := exists_isPeeledBy hne hone
    exact ⟨finder, t, _, hfinder, (checkedRank_eq_ok_iff hfinder).2 ⟨t, ht.runs, ht.eq_ascending⟩,
      rfl, ht⟩
  · intro finder candidates hnil hnodup hlt hfinite
    obtain ⟨hsearch, hselect⟩ := search_eq_ok hne hlt hfinite
    exact ⟨_, hsearch, hselect.ne_nil hnil, nodup_of_subperm hselect.subperm hnodup,
      hselect.subperm.subset⟩

/-- Three rows in a circle are all placed by elimination, and even the finder for a single
objective finds somebody among them. -/
theorem nearTies_isPeeledBy :
    (∃ finder t r, Strategy.best.finder nearTies = some finder ∧
      nearTies.checkedRank .best = .ok r ∧ r.size = nearTies.size ∧
      IsPeeledBy finder nearTies t r) ∧
    ∃ front, Finder.oneObjective.search nearTies [2, 0] = .ok front ∧ front ≠ [] ∧ front.Nodup ∧
      front ⊆ [2, 0] := by
  obtain ⟨hrank, hfinder⟩ := @isPeeledBy_checkedRank nearTies 3 (by decide) (by decide +kernel)
    .best (by decide) (fun hauto => nomatch hauto)
  refine ⟨hrank, hfinder .oneObjective [2, 0] (by decide) (by decide) (by decide) fun _ => ?_⟩
  decide +kernel

/-- Finite values are asked for with reason: the finder for a single objective does not find
an infinite one, and the first round is followed by others like it without end. -/
example : FitnessMatrix.checkedRank (#[[⟨0x7ff0000000000000⟩]] : FitnessMatrix Binary64) .auto
    = .error .tooLarge := by
  decide +kernel

end ParetoSelection
