import ParetoSelection.Proofs.Binary64.Tolerance
import ParetoSelection.Proofs.Fronts.Pairwise
import ParetoSelection.Proofs.Fronts.Tally

/-!
# The two loops rank canonically

Once every two candidates have been compared, one front after the other is taken away. What
holds between two rounds is that the counters are right for those who are left, and that the
ranks are those of the fronts so far (`Countdown.IsSound`). Since the counters are right none
of them is lowered below zero, and a candidate that reaches zero was in no front before. Each
round therefore places somebody new or is the last one (`Countdown.IsSound.exists_runs`).

So the two loops give the ranks and fronts of ranking by counting to every matrix, with or
without a cycle of dominance (`FitnessMatrix.countsOut_pairwiseFronts`). Without a cycle these
are the canonical ones (`FitnessMatrix.exists_countsOut_of_isAcyclic`): the rank of a candidate
is the length of the longest chain of dominators above it. Dominance with a tolerance is not
transitive, and that the first member of such a chain dominates the last one is neither used
nor true (`nearTieChain`).
-/

namespace ParetoSelection

variable {α : Type} [Scalar α] {m : FitnessMatrix α}

open ParetoSelection.Pairwise

namespace Departure

/-! ## Taking a front away -/

/-- The counters and those who have reached zero, without the ranks. -/
def toRelease (s : Departure) : Release :=
  ⟨s.counts, s.next⟩

/-- **The ranks while a front is taken away**: those who have reached zero have got the rank
of the next front, and nobody else has got another rank than before. -/
structure IsRanked (rank : Nat) (before : Array Nat) (s : Departure) : Prop where
  /-- Everybody who has a counter has a rank. -/
  size_ranks : s.ranks.size = s.counts.size
  /-- There are as many ranks as before. -/
  size_eq : s.ranks.size = before.size
  /-- Those who have reached zero have got their rank. -/
  getD_ranks : ∀ k, s.ranks.getD k 0 = if k ∈ s.next then rank else before.getD k 0

/-- **A counter that is not zero is lowered.** -/
theorem exists_lower {rank j : Nat} {before : Array Nat} {s : Departure}
    (hpos : s.counts.getD j 0 ≠ 0) (h : s.IsRanked rank before) :
    ∃ s', lower rank s j = .ok s' ∧ s'.toRelease = s.toRelease.lower j
      ∧ s'.IsRanked rank before := by
  have hj : j < s.counts.size := by
    by_contra hj
    rw [Array.getD_eq_getD_getElem?, Array.getElem?_eq_none (Nat.le_of_not_lt hj)] at hpos
    exact hpos rfl
  obtain ⟨left, hleft⟩ := Nat.exists_eq_succ_of_ne_zero hpos
  have hrelease : s.toRelease.lower j = ⟨s.counts.setIfInBounds j left,
      if left = 0 then s.next ++ [j] else s.next⟩ := by
    show (⟨s.counts.setIfInBounds j (s.counts.getD j 0 - 1),
      if s.counts.getD j 0 - 1 = 0 then s.next ++ [j] else s.next⟩ : Release) = _
    rw [hleft, Nat.succ_sub_one]
  have hlower : lower rank s j = if left = 0 then
        writeAt s.ranks j rank >>= fun ranks =>
          pure ⟨s.counts.setIfInBounds j left, ranks, s.next ++ [j]⟩
      else pure ⟨s.counts.setIfInBounds j left, s.ranks, s.next⟩ := by
    rw [lower, readAt_eq_getD hj 0, hleft, ok_bind]
    dsimp only
    rw [writeAt_eq_setIfInBounds _ hj]
    rfl
  have hsize : s.ranks.size = (s.counts.setIfInBounds j left).size := by
    rw [Array.size_setIfInBounds, h.size_ranks]
  rw [hlower, hrelease]
  by_cases hzero : left = 0
  · obtain ⟨ranks, hranks, hsizeRanks, hget⟩ := writeAt_eq_ok rank (h.size_ranks.symm ▸ hj)
    rw [if_pos hzero, if_pos hzero, hranks]
    refine ⟨_, rfl, rfl, hsizeRanks.trans hsize, hsizeRanks.trans h.size_eq, fun k => ?_⟩
    rw [hget, h.getD_ranks]
    by_cases hkj : k = j
    · simp [hkj]
    · simp [hkj]
  · rw [if_neg hzero, if_neg hzero]
    exact ⟨_, rfl, rfl, hsize, h.size_eq, h.getD_ranks⟩

/-- **Counters that suffice for a list are lowered along it.** -/
theorem exists_lowerAll {rank : Nat} {before : Array Nat} {lowered : List Nat} {s : Departure}
    (hcount : ∀ j, lowered.count j ≤ s.counts.getD j 0) (h : s.IsRanked rank before) :
    ∃ s', lowered.foldlM (lower rank) s = .ok s'
      ∧ s'.toRelease = lowered.foldl Release.lower s.toRelease ∧ s'.IsRanked rank before := by
  induction lowered generalizing s with
  | nil => exact ⟨s, rfl, rfl, h⟩
  | cons i lowered ih =>
    have hpos : s.counts.getD i 0 ≠ 0 := by
      have hle := hcount i
      rw [List.count_cons_self] at hle
      exact Nat.ne_of_gt (Nat.lt_of_lt_of_le (Nat.succ_pos _) hle)
    obtain ⟨s', hs', hrelease, hranked⟩ := exists_lower hpos h
    have hcounts : s'.counts = (s.toRelease.lower i).counts := congrArg Release.counts hrelease
    have hrest : ∀ j, lowered.count j ≤ s'.counts.getD j 0 := by
      intro j
      have hone : (s.toRelease.lower i).counts.getD j 0 = s.counts.getD j 0 - List.count j [i] :=
        getD_counts_foldl_lower [i] s.toRelease j
      have hle := hcount j
      rw [← List.singleton_append, List.count_append] at hle
      rw [hcounts, hone]
      exact Nat.le_sub_of_add_le (by rwa [Nat.add_comm])
    obtain ⟨t, ht, hreleaseAll, hrankedAll⟩ := ih hrest hranked
    refine ⟨t, ?_, ?_, hrankedAll⟩
    · rw [List.foldlM_cons, hs']
      exact ht
    · rw [hreleaseAll, hrelease, List.foldl_cons]

/-- Taking candidates away lowers the counters of all whom they have beaten. -/
theorem foldlM_dismiss {beaten : Array (List Nat)} {rank : Nat} {front : List Nat}
    (hfront : ∀ i ∈ front, i < beaten.size) (s : Departure) :
    front.foldlM (dismiss beaten rank) s
      = (front.flatMap fun i => beaten.getD i []).foldlM (lower rank) s := by
  induction front generalizing s with
  | nil => rfl
  | cons i front ih =>
    rw [List.foldlM_cons, List.flatMap_cons, List.foldlM_append, dismiss,
      readAt_eq_getD (hfront i List.mem_cons_self) []]
    exact bind_congr fun t => ih (fun k hk => hfront k (List.mem_cons_of_mem i hk)) t

end Departure

namespace Countdown

variable {done front : List Nat} {counts : Array Nat}

/-! ## One round -/

/-- A new front at the end gives its position as rank to those who were in no front. -/
theorem rank_append_front (n : Nat) (fronts : List (List Nat)) (next : List Nat) (i : Nat) :
    (⟨n, fronts ++ [next]⟩ : RankedFronts).rank i
      = if i ∈ next ∧ i ∉ fronts.flatten then fronts.length
        else (⟨n, fronts⟩ : RankedFronts).rank i := by
  have hnone : fronts.findIdx? (·.contains i) = none ↔ i ∉ fronts.flatten := by
    simp [List.findIdx?_eq_none_iff]
  unfold RankedFronts.rank
  rw [List.findIdx?_append]
  cases hfound : fronts.findIdx? (·.contains i) with
  | some k =>
    have hi : ¬ (i ∈ next ∧ i ∉ fronts.flatten) := fun h =>
      absurd (hnone.2 h.2) (hfound ▸ Option.some_ne_none k)
    rw [if_neg hi]
    rfl
  | none =>
    rw [Option.none_or, List.findIdx?_singleton]
    by_cases hnext : i ∈ next
    · rw [if_pos (List.contains_iff_mem.2 hnext), if_pos ⟨hnext, hnone.1 hfound⟩]
      exact Nat.zero_add _
    · rw [if_neg (mt List.contains_iff_mem.1 hnext), if_neg fun h => hnext h.1]
      rfl

/-- An empty front at the end changes no rank. -/
theorem ranks_append_nil (n : Nat) (fronts : List (List Nat)) :
    (⟨n, fronts ++ [[]]⟩ : RankedFronts).ranks = (⟨n, fronts⟩ : RankedFronts).ranks := by
  refine List.map_congr_left fun i _ => ?_
  rw [rank_append_front, if_neg fun h => List.not_mem_nil h.1]

/-- **What holds between two rounds**: the fronts before the last one are gone, the counters
are right for those who are left, and the ranks are those of the fronts. -/
structure IsSound (m : FitnessMatrix α) (gone : List (List Nat)) (front : List Nat)
    (s : Countdown) : Prop where
  /-- The last front is next to go. -/
  fronts_eq : s.fronts = gone ++ [front]
  /-- The counters are right. -/
  counting : Counting m gone.flatten s.counts front
  /-- Everybody has a counter. -/
  size_counts : s.counts.size = m.size
  /-- Everybody has a rank. -/
  size_ranks : s.ranks.size = m.size
  /-- The ranks are those of the fronts. -/
  getD_ranks : ∀ i < m.size, s.ranks.getD i 0 = (⟨m.size, s.fronts⟩ : RankedFronts).rank i

/-- It holds once the first front is known. -/
theorem isSound_start (m : FitnessMatrix α) :
    (start ⟨dominatorCounts m, Pairwise.beaten m, firstFront m (dominatorCounts m)⟩).IsSound m []
      (firstFront m (dominatorCounts m)) where
  fronts_eq := rfl
  counting := Counting.start m
  size_counts := size_dominatorCounts m
  size_ranks := by
    show (Array.replicate (dominatorCounts m).size 0).size = m.size
    rw [Array.size_replicate, size_dominatorCounts]
  getD_ranks i hi := by
    show (Array.replicate (dominatorCounts m).size 0).getD i 0 = _
    rw [size_dominatorCounts, getD_replicate hi]
    show 0 = (⟨m.size, [] ++ [_]⟩ : RankedFronts).rank i
    rw [rank_append_front]
    split <;> rfl

/-- **A round takes the last front away**, as `release` does, and what holds before the round
holds after it with those who have reached zero as the last front. -/
theorem IsSound.exists_dismissLast {gone : List (List Nat)} {s : Countdown}
    (h : s.IsSound m gone front) :
    ∃ d, s.dismissLast (beaten m) = .ok d ∧ d.toRelease = release (beaten m) s.counts front
      ∧ (⟨d.counts, d.ranks, s.fronts ++ [d.next]⟩ : Countdown).IsSound m s.fronts d.next := by
  have hbegin : (⟨s.counts, s.ranks, []⟩ : Departure).IsRanked s.fronts.length s.ranks :=
    ⟨h.size_ranks.trans h.size_counts.symm, rfl, fun k => (if_neg List.not_mem_nil).symm⟩
  obtain ⟨d, hd, hrelease, hranked⟩ := Departure.exists_lowerAll h.counting.count_le hbegin
  have hlast : s.fronts.getLastD [] = front := by
    rw [h.fronts_eq, List.getLastD_concat]
  have hcounting : Counting m s.fronts.flatten d.counts d.next := by
    have hstep := h.counting.step
    rw [show release (beaten m) s.counts front = d.toRelease from hrelease.symm] at hstep
    rw [h.fronts_eq, List.flatten_append, List.flatten_singleton]
    exact hstep
  refine ⟨d, ?_, hrelease, rfl, hcounting, ?_, hranked.size_eq.trans h.size_ranks, fun i hi => ?_⟩
  · rw [dismissLast, hlast, Departure.foldlM_dismiss fun i hi => ?_]
    · exact hd
    · rw [size_beaten]
      exact h.counting.lt_size hi
  · exact hranked.size_ranks.symm.trans (hranked.size_eq.trans h.size_ranks)
  · show d.ranks.getD i 0 = _
    rw [hranked.getD_ranks, rank_append_front, ← h.getD_ranks i hi]
    refine if_congr ⟨fun hnext => ⟨hnext, fun hplaced => ?_⟩, And.left⟩ rfl rfl
    exact (List.nodup_append'.1 hcounting.nodup).2.2 hplaced hnext

/-! ## All rounds -/

/-- **There is one run at most** from a state. -/
theorem Runs.unique {beaten : Array (List Nat)} {s t t' : Countdown} (h : Runs beaten s t)
    (h' : Runs beaten s t') : t = t' := by
  induction h with
  | done hround hnone =>
    cases h' with
    | done hround' _ =>
      obtain rfl := Except.ok.inj (hround.symm.trans hround')
      rfl
    | next hround' hsome _ =>
      obtain rfl := Except.ok.inj (hround.symm.trans hround')
      exact absurd hnone hsome
  | next hround hsome _ ih =>
    cases h' with
    | done hround' hnone =>
      obtain rfl := Except.ok.inj (hround.symm.trans hround')
      exact absurd hnone hsome
    | next hround' _ hrun' =>
      obtain rfl := Except.ok.inj (hround.symm.trans hround')
      exact ih hrun'

/-- The ranks are those of the fronts, as one array. -/
theorem IsSound.ranks_eq {gone : List (List Nat)} {s : Countdown} (h : s.IsSound m gone front) :
    s.ranks = (⟨m.size, s.fronts⟩ : RankedFronts).ranks.toArray := by
  have hlength := RankedFronts.length_ranks ⟨m.size, s.fronts⟩
  refine eq_of_getD_eq 0 (h.size_ranks.trans hlength.symm) fun i hi => ?_
  rw [h.size_ranks] at hi
  rw [h.getD_ranks i hi, getD_toArray]
  exact (RankedFronts.getD_ranks ⟨m.size, s.fronts⟩ hi).symm

/-- **The rounds come to an end**, with the fronts that counting finds and their ranks, and
no counter is lowered below zero on the way. -/
theorem IsSound.exists_runs {gone : List (List Nat)} {s : Countdown} (h : s.IsSound m gone front)
    {fuel : Nat} (hfuel : m.size ≤ fuel + (gone.flatten ++ front).length) :
    ∃ t, Runs (beaten m) s t ∧ t.fronts = s.fronts ++ following (beaten m) fuel s.counts front
      ∧ t.ranks = (⟨m.size, t.fronts⟩ : RankedFronts).ranks.toArray := by
  induction fuel generalizing gone s front with
  | zero =>
    obtain ⟨d, hround, -, hsound⟩ := h.exists_dismissLast
    -- everybody is placed, so nobody is left to reach zero
    have hnone : d.next = [] := by
      refine List.eq_nil_iff_forall_not_mem.2 fun j hj => ?_
      obtain ⟨hlt, hnot, -⟩ := (hsound.counting.isLayer.mem_iff j).1 hj
      rw [h.fronts_eq, List.flatten_append, List.flatten_singleton] at hnot
      exact hnot (h.counting.mem_of_size_le (by rwa [Nat.zero_add] at hfuel) hlt)
    refine ⟨_, .done hround hnone, (List.append_nil _).symm, hsound.ranks_eq.trans ?_⟩
    show (⟨m.size, s.fronts ++ [d.next]⟩ : RankedFronts).ranks.toArray = _
    rw [hnone, ranks_append_nil]
  | succ fuel ih =>
    obtain ⟨d, hround, hrelease, hsound⟩ := h.exists_dismissLast
    have hfollowing : following (beaten m) (fuel + 1) s.counts front = if d.next.isEmpty then []
        else d.next :: following (beaten m) fuel d.counts d.next := by
      rw [following, ← hrelease]
      rfl
    rw [hfollowing]
    by_cases hnone : d.next = []
    · rw [if_pos (List.isEmpty_iff.2 hnone)]
      refine ⟨_, .done hround hnone, (List.append_nil _).symm, hsound.ranks_eq.trans ?_⟩
      show (⟨m.size, s.fronts ++ [d.next]⟩ : RankedFronts).ranks.toArray = _
      rw [hnone, ranks_append_nil]
    · rw [if_neg (mt List.isEmpty_iff.1 hnone)]
      have hpos := List.length_pos_iff.2 hnone
      obtain ⟨t, hrun, hfronts, hranks⟩ := ih hsound (by
        rw [h.fronts_eq, List.flatten_append, List.flatten_singleton, List.length_append]
        omega)
      refine ⟨t, .next hround hnone hrun, ?_, hranks⟩
      rw [hfronts, List.append_assoc]
      rfl

end Countdown

/-! ## Both loops -/

namespace FitnessMatrix

/-- **The loops give one answer at most.** -/
theorem CountsOut.unique {ranks ranks' : Array Nat} {fronts fronts' : List (List Nat)}
    (h : m.CountsOut ranks fronts) (h' : m.CountsOut ranks' fronts') :
    ranks = ranks' ∧ fronts = fronts' := by
  cases h with
  | nobody hsize =>
    cases h' with
    | nobody _ => exact ⟨rfl, rfl⟩
    | alone hsize' => omega
    | several hsize' _ _ => omega
  | alone hsize =>
    cases h' with
    | nobody hsize' => omega
    | alone _ => exact ⟨rfl, rfl⟩
    | several hsize' _ _ => omega
  | several hsize htally hruns =>
    cases h' with
    | nobody hsize' => omega
    | alone hsize' => omega
    | several _ htally' hruns' =>
      obtain rfl := Except.ok.inj (htally.symm.trans htally')
      obtain rfl := hruns.unique hruns'
      exact ⟨rfl, rfl⟩

section Values

variable (hvalues : ∀ x y : α, ¬ (isLessWithin defaultTolerance x y = true
  ∧ isLessWithin defaultTolerance y x = true))

include hvalues

/-- An only candidate is the first front. -/
theorem pairwiseFronts_of_size_eq_one (hsize : m.size = 1) : m.pairwiseFronts = ⟨1, [[0]]⟩ := by
  have hself : dominates (m.row 0) (m.row 0) = false :=
    decide_eq_false (compareWithin_self_ne_left hvalues _)
  have hone : 0 < m.size := hsize.symm ▸ Nat.one_pos
  have hcandidates : m.candidates = [0] := by
    rw [candidates, hsize]
    rfl
  have hfront : firstFront m (dominatorCounts m) = [0] := by
    have hcount : (dominatorCounts m).getD 0 0 = 0 := by
      rw [getD_dominatorCounts m hone, dominatorCount, hcandidates]
      simp [hself]
    rw [firstFront, hcandidates, List.filter_cons, hcount]
    rfl
  have hbeaten : (beaten m).getD 0 [] = [] := by
    rw [getD_beaten m hone, dominatedBy, hcandidates]
    simp [hself]
  have hrelease : (release (beaten m) (dominatorCounts m) [0]).released = [] := by
    rw [release, List.flatMap_singleton, hbeaten]
    rfl
  rw [pairwiseFronts_eq hone, hfront, hsize, following, if_pos (List.isEmpty_iff.2 hrelease)]

/-- **The two loops give the ranks and the fronts of ranking by counting**, to any matrix. -/
theorem countsOut_pairwiseFronts (m : FitnessMatrix α) :
    m.CountsOut m.pairwiseFronts.ranks.toArray m.pairwiseFronts.fronts := by
  by_cases hnobody : m.size = 0
  · rw [pairwiseFronts_of_size_eq_zero hnobody]
    exact .nobody hnobody
  · by_cases halone : m.size = 1
    · rw [pairwiseFronts_of_size_eq_one hvalues halone]
      exact .alone halone
    · have hsize : 2 ≤ m.size := by omega
      obtain ⟨s, hruns, hfronts, hranks⟩ :=
        (Countdown.isSound_start m).exists_runs (Nat.le_add_right m.size _)
      have heq : m.pairwiseFronts = ⟨m.size, s.fronts⟩ := by
        rw [pairwiseFronts_eq (Nat.zero_lt_of_lt hsize), hfronts]
        rfl
      rw [heq, ← hranks]
      exact .several hsize (Tally.ofMatrix_eq_ok hvalues m) hruns

end Values

end FitnessMatrix

/-- **The canonical ranks and fronts of a relation of dominance**: nobody is lost, everybody
is in the front at their rank, dominators have smaller ranks, and no rank is larger than that
requires. -/
structure IsCanonicalRanking (D : Nat → Nat → Prop) (n : Nat) (ranks : Array Nat)
    (fronts : List (List Nat)) : Prop where
  /-- Everybody has a rank. -/
  size_ranks : ranks.size = n
  /-- No front is empty. -/
  front_ne_nil : ∀ front ∈ fronts, front ≠ []
  /-- Nobody is listed twice, neither in one front nor in two. -/
  nodup : fronts.flatten.Nodup
  /-- The fronts together contain all candidates and nothing else. -/
  mem_flatten : ∀ i, i ∈ fronts.flatten ↔ i < n
  /-- A candidate is in the front at its rank. -/
  mem_front : ∀ i < n, i ∈ fronts.getD (ranks.getD i 0) []
  /-- A dominator has a smaller rank. -/
  rank_lt : ∀ i < n, ∀ j < n, D i j → ranks.getD i 0 < ranks.getD j 0
  /-- Behind the first front everybody is dominated by a member of the front before. -/
  exists_dominator : ∀ j < n, ∀ k, ranks.getD j 0 = k + 1 → ∃ i ∈ fronts.getD k [], D i j
  /-- The rank is the length of the longest chain of dominators. -/
  isGreatest_chain_length : ∀ j < n,
    IsGreatest {l | ∃ chain, chain.length = l ∧ IsChainAbove D j chain} (ranks.getD j 0)

/-- A ranking that is canonical remains so if the ranks are read off beforehand. -/
theorem RankedFronts.IsCanonical.isCanonicalRanking {D : Nat → Nat → Prop} {r : RankedFronts}
    (h : r.IsCanonical D) : IsCanonicalRanking D r.size r.ranks.toArray r.fronts := by
  have hrank : ∀ i < r.size, r.ranks.toArray.getD i 0 = r.rank i := by
    intro i hi
    rw [getD_toArray, r.getD_ranks hi]
  refine ⟨r.length_ranks, h.isPartition.front_ne_nil, h.isPartition.nodup,
    h.isPartition.mem_ordered, fun i hi => ?_, fun i hi j hj hij => ?_, fun j hj k hk => ?_,
    fun j hj => ?_⟩
  · rw [hrank i hi]
    exact h.isPartition.mem_front i hi
  · rw [hrank i hi, hrank j hj]
    exact h.rank_lt i j hij
  · rw [hrank j hj] at hk
    exact h.exists_dominator j hj k hk
  · rw [hrank j hj]
    exact h.isGreatest_chain_length j hj

/-- **The two loops rank canonically.** Where dominance has no cycle they come to an end, with
no counter lowered below zero and no access outside the stores, and the ranks and fronts that
they leave are canonical: everybody is in the front at their rank, dominators have smaller
ranks, and the rank is the length of the longest chain of dominators. Nothing is asked of the
values, of their number in a row, or of dominance along a chain. -/
theorem FitnessMatrix.exists_countsOut_of_isAcyclic {m : FitnessMatrix Binary64}
    (h : m.IsAcyclic) :
    ∃ ranks fronts, m.CountsOut ranks fronts
      ∧ (∀ ranks' fronts', m.CountsOut ranks' fronts' → ranks' = ranks ∧ fronts' = fronts)
      ∧ IsCanonicalRanking m.Dominates m.size ranks fronts
      ∧ m.pairwiseFronts = ⟨m.size, fronts⟩ ∧ m.pairwiseFronts.ranks = ranks.toList := by
  have hcounts := countsOut_pairwiseFronts
    (Binary64.not_isLessWithin_and Binary64.isUnsigned_defaultTolerance) m
  have hcanonical := (isCanonical_of_isAcyclic h).isCanonicalRanking
  rw [size_pairwiseFronts] at hcanonical
  refine ⟨_, _, hcounts, fun _ _ h' => h'.unique hcounts, hcanonical, ?_, rfl⟩
  rw [← size_pairwiseFronts m]

/-- **A chain of which the ends do not compare**: each of the three rows is better than the
next in the first objective and tied with it in the second, where two ties in a row are more
than the tolerance. -/
def nearTieChain : FitnessMatrix Binary64 :=
  let low : Binary64 := ⟨4607182418800017408⟩
  let middle : Binary64 := ⟨4607182418800332660⟩
  let high : Binary64 := ⟨4607182418800647912⟩
  #[[⟨0x4008000000000000⟩, low], [⟨0x4000000000000000⟩, middle], [⟨0x3ff0000000000000⟩, high]]

/-- Dominance runs downwards along the chain. -/
theorem nearTieChain_isAcyclic : nearTieChain.IsAcyclic := by
  have hall : ∀ i < 3, ∀ j < 3,
      dominates (nearTieChain.row i) (nearTieChain.row j) = true → i < j := by decide +kernel
  exact FitnessMatrix.isAcyclic_of_lt id fun i j h => hall i h.1 j h.2.1 h.2.2

/-- The last row of the chain has rank two, although the first one does not dominate it. -/
theorem nearTieChain_countsOut :
    nearTieChain.IsAcyclic ∧ ¬ nearTieChain.Dominates 0 2
      ∧ nearTieChain.CountsOut #[0, 1, 2] [[0], [1], [2]]
      ∧ IsCanonicalRanking nearTieChain.Dominates 3 #[0, 1, 2] [[0], [1], [2]] := by
  have hnot : ¬ dominates (nearTieChain.row 0) (nearTieChain.row 2) = true := by decide +kernel
  have hfronts : nearTieChain.pairwiseFronts = ⟨3, [[0], [1], [2]]⟩ := by decide +kernel
  obtain ⟨ranks, fronts, hcounts, -, hcanonical, heq, hranks⟩ :=
    FitnessMatrix.exists_countsOut_of_isAcyclic nearTieChain_isAcyclic
  obtain rfl : [[0], [1], [2]] = fronts :=
    congrArg RankedFronts.fronts (hfronts.symm.trans heq)
  obtain rfl : ranks = #[0, 1, 2] := by
    rw [hfronts] at hranks
    exact Array.toList_inj.1 (hranks.symm.trans rfl)
  exact ⟨nearTieChain_isAcyclic, fun h => hnot h.2.2, hcounts, hcanonical⟩

end ParetoSelection
