import ParetoSelection.Proofs.Nsga3.Occupancy

/-!
# What the niche counts count

The niche counts of a run are not quite the numbers of its members by direction.
After a first population they are, if all of it has been ranked. A generation
counts the members of the fronts that fit, and from then on one count goes up
with every candidate that moves in – except for the last candidate of its
direction, because the direction then leaves the pool and its count is of no
further use. So a direction whose candidates have all moved in is one short, and
it stays so after the generation.

`shortfall` is how much a count is short at any moment, read off the pool and off
the candidates that have been taken: one for a direction that was taken from and
is not in the pool any more. `IsCounted` says that this is all that is missing;
every move keeps it (`IsCounted.of_moveIn`), wherever in the pool the draw falls.
At the end the directions that are short are those whose candidates in the front
at the cut have all survived (`IsExhausted`), a property of the survivors alone.
-/

namespace ParetoSelection

variable {α : Type} [Scalar α]

namespace Niching

variable {assoc : Nat → Association α}

/-! ## Counts that are one short -/

/-- **By how much the count of a direction is short**: by one, if a candidate of the
direction has been taken and none is left. -/
def shortfall (assoc : Nat → Association α) (taken pool : List Nat) (d : Nat) : Nat :=
  if (∃ i ∈ taken, (assoc i).direction = d) ∧ d ∉ pool then 1 else 0

omit [Scalar α] in
/-- A direction of the pool is not short. -/
theorem shortfall_of_mem {pool : List Nat} {d : Nat} (hd : d ∈ pool) (taken : List Nat) :
    shortfall assoc taken pool d = 0 :=
  if_neg fun h => h.2 hd

omit [Scalar α] in
/-- A direction that gives its last candidate becomes short. -/
theorem shortfall_of_last {pool : List Nat} {i d : Nat} (hi : (assoc i).direction = d)
    (hd : d ∉ pool) (taken : List Nat) : shortfall assoc (taken ++ [i]) pool d = 1 :=
  if_pos ⟨⟨i, List.mem_append_right _ (List.mem_singleton_self i), hi⟩, hd⟩

omit [Scalar α] in
/-- No other direction does, when a candidate is taken. -/
theorem shortfall_of_ne {pool pool' : List Nat} {i d : Nat} (hi : (assoc i).direction ≠ d)
    (hd : d ∈ pool' ↔ d ∈ pool) (taken : List Nat) :
    shortfall assoc (taken ++ [i]) pool' d = shortfall assoc taken pool d := by
  have htaken : (∃ j ∈ taken ++ [i], (assoc j).direction = d)
      ↔ ∃ j ∈ taken, (assoc j).direction = d := by
    constructor
    · rintro ⟨j, hj, hjd⟩
      refine ⟨j, (List.mem_append.1 hj).resolve_right fun hlast => hi ?_, hjd⟩
      rwa [← List.mem_singleton.1 hlast]
    · rintro ⟨j, hj, hjd⟩
      exact ⟨j, List.mem_append_left _ hj, hjd⟩
  unfold shortfall
  simp only [htaken, hd]

variable (assoc) in
/-- **Only exhausted directions are not counted in full**, and these are one short. The
pool is exact, so it knows which directions they are. -/
structure IsCounted (taken : List Nat) (s : Niching) : Prop where
  /-- The pool is the directions of the remaining candidates. -/
  consistent : s.IsConsistent assoc
  /-- The directions of the pool are counted. -/
  lt_size : ∀ d ∈ s.pool, d < s.counts.size
  /-- A count and what it is short of are the members of the direction. -/
  count_add : ∀ d < s.counts.size,
    count s.counts d + shortfall assoc taken s.pool d = occupancy assoc s.survivors d

omit [Scalar α] in
/-- **To start with nothing is missing.** -/
theorem isCounted_initialPool {counts : Array Nat} {survivors : List Nat}
    (hlt : ∀ i, (assoc i).direction < counts.size)
    (hcounts : ∀ d < counts.size, count counts d = occupancy assoc survivors d)
    (remaining : List Nat) :
    IsCounted assoc [] ⟨survivors, remaining, initialPool assoc counts remaining, counts⟩ := by
  have hconsistent := isConsistent_initialPool hlt survivors remaining
  refine ⟨hconsistent, fun d hd => ?_, fun d hd => ?_⟩
  · obtain ⟨i, -, rfl⟩ := (hconsistent.mem_pool d).1 hd
    exact hlt i
  · have hnone : shortfall assoc [] (initialPool assoc counts remaining) d = 0 :=
      if_neg fun h => by
        obtain ⟨i, hi, -⟩ := h.1
        exact List.not_mem_nil hi
    rw [← hcounts d hd]
    exact congrArg (count counts d + ·) hnone

/-- **A move misses at most its own direction.** Either a count goes up with the
members, or the direction leaves the pool and is one short from then on. -/
theorem IsCounted.of_moveIn {taken : List Nat} {s s' : Niching} (h : s.IsCounted assoc taken)
    {place i : Nat} (hplace : place < s.minimalCount) (hmove : s.moveIn assoc place = some s')
    (hsurvivors : s'.survivors = s.survivors ++ [i]) : s'.IsCounted assoc (taken ++ [i]) := by
  have hlt : place < s.pool.length :=
    Nat.lt_of_lt_of_le hplace (List.takeWhile_sublist _).length_le
  have hdrawn := getD_mem hlt
  have hdirection := (perm_of_moveIn hmove hsurvivors).2
  have hoccupancy := occupancy_of_moveIn hmove hsurvivors
  obtain ⟨_, _, -, -, -, ⟨-, hpool, hcounts⟩ | ⟨-, hcounts, hpool⟩⟩ := moveIn_cases hmove
  · -- the last candidate: the direction leaves the pool, and no count changes
    have hmem := mem_eraseIdx_pool h.consistent.pool_nodup hlt
    refine ⟨h.consistent.of_moveIn hlt hmove, fun e he => ?_, fun e he => ?_⟩
    · rw [hpool, hmem] at he
      rw [hcounts]
      exact h.lt_size e he.1
    · rw [hcounts] at he ⊢
      rw [hoccupancy, hpool, ← h.count_add e he]
      by_cases hde : s.pool.getD place 0 = e
      · rw [if_pos hde, ← hde, shortfall_of_mem hdrawn,
          shortfall_of_last hdirection fun hin => ((hmem _).1 hin).2 rfl]
      · rw [if_neg hde, Nat.add_zero, shortfall_of_ne (by rwa [hdirection])
          ((hmem e).trans (and_iff_left (Ne.symm hde)))]
  · -- others remain: the count goes up, and the pool keeps its directions
    have hmem : ∀ e, e ∈ s'.pool ↔ e ∈ s.pool := fun e => by
      rw [hpool]
      exact (reorderPool_perm _ hlt).mem_iff
    refine ⟨h.consistent.of_moveIn hlt hmove, fun e he => ?_, fun e he => ?_⟩
    · rw [hcounts, Array.size_modify]
      exact h.lt_size e ((hmem e).1 he)
    · rw [hcounts, Array.size_modify] at he
      rw [hcounts, count_modify (h.lt_size _ hdrawn), hoccupancy, ← h.count_add e he]
      by_cases hde : s.pool.getD place 0 = e
      · rw [if_pos hde, ← hde, shortfall_of_mem hdrawn, shortfall_of_mem ((hmem _).2 hdrawn)]
      · rw [if_neg hde, Nat.add_zero, Nat.add_zero,
          shortfall_of_ne (by rwa [hdirection]) (hmem e)]

/-! ## Exhausted directions -/

/-- **A direction is exhausted**, if the front at the cut was thinned, has candidates of
the direction, and all of them have survived. -/
def IsExhausted (assoc : Nat → Association α) (target : Nat)
    (complete overflowing kept : List Nat) (d : Nat) : Prop :=
  complete.length < target ∧ (∃ i ∈ overflowing, (assoc i).direction = d)
    ∧ ∀ i ∈ overflowing, (assoc i).direction = d → i ∈ kept

instance (assoc : Nat → Association α) (target : Nat) (complete overflowing kept : List Nat)
    (d : Nat) : Decidable (IsExhausted assoc target complete overflowing kept d) :=
  inferInstanceAs (Decidable (_ ∧ _ ∧ _))

omit [Scalar α] in
/-- **A direction that was taken from and has left the pool is an exhausted one**, given
the candidates that were taken and those that are left. -/
theorem isExhausted_iff {target : Nat} {complete overflowing taken : List Nat} {s : Niching}
    (hconsistent : s.IsConsistent assoc) (hnodup : (complete ++ overflowing).Nodup)
    (htaken : taken.length = target - complete.length)
    (hperm : (taken ++ s.remaining).Perm overflowing) (d : Nat) :
    ((∃ i ∈ taken, (assoc i).direction = d) ∧ d ∉ s.pool)
      ↔ IsExhausted assoc target complete overflowing (complete ++ taken) d := by
  obtain ⟨-, hfront, hdisjoint⟩ := List.nodup_append'.1 hnodup
  obtain ⟨-, -, hleft⟩ := List.nodup_append'.1 (hperm.nodup_iff.2 hfront)
  constructor
  · rintro ⟨⟨i, hi, hid⟩, hpool⟩
    refine ⟨?_, ⟨i, hperm.subset (List.mem_append_left _ hi), hid⟩, fun j hj hjd => ?_⟩
    · have hpos := List.length_pos_of_mem hi
      omega
    · refine List.mem_append_right _ ((List.mem_append.1 (hperm.mem_iff.2 hj)).resolve_right ?_)
      exact fun hremains => hpool ((hconsistent.mem_pool d).2 ⟨j, hremains, hjd⟩)
  · rintro ⟨-, ⟨i, hi, hid⟩, hall⟩
    have hmem : ∀ j ∈ overflowing, (assoc j).direction = d → j ∈ taken := fun j hj hjd =>
      (List.mem_append.1 (hall j hj hjd)).resolve_left fun hcomplete => hdisjoint hcomplete hj
    refine ⟨⟨i, hmem i hi hid, hid⟩, fun hpool => ?_⟩
    obtain ⟨j, hj, hjd⟩ := (hconsistent.mem_pool d).1 hpool
    exact hleft (hmem j (hperm.subset (List.mem_append_right _ hj)) hjd) hj

/-- **What the counts are after a filling** that starts with true counts, from any source
of draws in range: the members of every direction, less one for the exhausted ones. -/
theorem count_add_of_fill {complete overflowing : List Nat}
    (hnodup : (complete ++ overflowing).Nodup) {counts : Array Nat}
    (hlt : ∀ i, (assoc i).direction < counts.size)
    (hcounts : ∀ d < counts.size, count counts d = occupancy assoc complete d) {σ : Type}
    {draw : Nat → σ → Nat × σ} (hdraw : ∀ n source, 0 < n → (draw n source).1 < n)
    {target : Nat} {s : Niching} {source source' : σ}
    (hfill : fill assoc draw (target - complete.length)
      ⟨complete, overflowing, initialPool assoc counts overflowing, counts⟩ source
        = (.ok (), s, source')) :
    s.survivors.length = complete.length + (target - complete.length)
      ∧ ∀ d < s.counts.size,
        count s.counts d
            + (if IsExhausted assoc target complete overflowing s.survivors d then 1 else 0)
          = occupancy assoc s.survivors d := by
  obtain ⟨taken, hlen, hkept, hperm, hcounted⟩ := fill_invariant hdraw
    (P := fun taken s => s.IsCounted assoc taken)
    (fun h hplace hmove hsurvivors => h.of_moveIn hplace hmove hsurvivors) []
    (isCounted_initialPool hlt hcounts overflowing) hfill
  dsimp only at hkept hperm
  refine ⟨by rw [hkept, List.length_append, hlen], fun d hd => ?_⟩
  have hshort := isExhausted_iff hcounted.consistent hnodup hlen hperm d
  rw [← hcounted.count_add d hd, hkept]
  unfold shortfall
  simp only [List.nil_append, hshort]

end Niching

namespace Nsga3

/-! ## Runs -/

/-- A table is the associations at its positions. -/
theorem toArray_map_lookUp (table : Array (Association α)) :
    ((List.range table.size).map (Association.lookUp table)).toArray = table := by
  have hsize : ((List.range table.size).map (Association.lookUp table)).toArray.size
      = table.size := by
    rw [List.size_toArray, List.length_map, List.length_range]
  refine Array.ext hsize fun i _ hi => ?_
  rw [List.getElem_toArray, List.getElem_map, List.getElem_range, Association.lookUp,
    Array.getD_eq_getD_getElem?, Array.getElem?_eq_getElem hi, Option.getD_some]

/-- **The counts of a first population are its members by direction**, if all of it has
been ranked. -/
theorem Run.count_nicheCounts_ofPopulation {settings : Settings} {m : FitnessMatrix α} {r : Run α}
    (hr : Run.ofPopulation settings m = .ok r)
    (hranked : ∀ i < m.size, i ∈ (m.rankWith settings.strategy).ordered) :
    r.nicheCounts.size = r.directions.size
      ∧ ∀ d < r.directions.size, Niching.count r.nicheCounts d = r.occupancy d := by
  obtain ⟨-, -, hmembers, hcounts⟩ := Run.of_ofPopulation_eq_ok hr
  have hsize : r.members.size = m.size := by
    rw [hmembers, Association.size_table, size_rankWith]
  have hperm : (m.rankWith settings.strategy).ordered.Perm (List.range m.size) := by
    refine (List.perm_ext_iff_of_nodup nodup_ordered_rankWith List.nodup_range).2 fun i => ?_
    rw [List.mem_range]
    exact ⟨lt_of_mem_ordered_rankWith, hranked i⟩
  refine ⟨by rw [hcounts, Association.size_nicheCounts], fun d hd => ?_⟩
  rw [Run.occupancy_eq (toArray_map_lookUp r.members).symm, hsize, hcounts, count_nicheCounts _ hd]
  exact hperm.countP_eq _

/-- **A direction that a generation has exhausted**, with the survivors `kept`. -/
def Run.IsExhausted (settings : Settings) (combined : FitnessMatrix α) (r : Run α)
    (kept : List Nat) (d : Nat) : Prop :=
  Niching.IsExhausted (r.candidate settings combined) settings.populationSize
    ((combined.rankWith settings.strategy).complete settings.populationSize)
    ((combined.rankWith settings.strategy).overflowing settings.populationSize) kept d

instance (settings : Settings) (combined : FitnessMatrix α) (r : Run α) (kept : List Nat)
    (d : Nat) : Decidable (r.IsExhausted settings combined kept d) :=
  inferInstanceAs (Decidable (Niching.IsExhausted _ _ _ _ _ _))

/-- **The counts of a generation are its members by direction**, less one for every
exhausted direction. -/
theorem Run.count_nicheCounts_advance {σ : Type} {draw : Nat → σ → Nat × σ}
    (hdraw : ∀ n source, 0 < n → (draw n source).1 < n) {settings : Settings}
    {combined : FitnessMatrix α} {r after : Run α} (hr : r.directions.IsSearchable)
    (hnodup : (combined.rankWith settings.strategy).ordered.Nodup) {source rest : σ}
    {kept : List Nat}
    (h : r.advance draw settings combined source = (.ok kept, after, rest)) :
    after.directions = r.directions ∧ after.nicheCounts.size = r.directions.size
      ∧ after.members = (kept.map (r.candidate settings combined)).toArray
      ∧ kept.length = settings.populationSize
      ∧ ∀ d < r.directions.size, Niching.count after.nicheCounts d
          + (if r.IsExhausted settings combined kept d then 1 else 0) = after.occupancy d := by
  obtain ⟨counts, s, hsize, hcounts, hfill, rfl, rfl⟩ := Run.of_advance_eq_ok hr h
  have hcut := hnodup.sublist (RankedFronts.complete_append_overflowing_prefix
    (combined.rankWith settings.strategy) settings.populationSize).sublist
  have hlt := r.direction_candidate_lt hr settings combined
  have hlast : s.counts.size = r.directions.size := by
    have hsame := congrArg (·.2.1.counts.size) hfill
    exact hsame.symm.trans ((Niching.size_counts_fill draw _ _ source).trans hsize)
  obtain ⟨hlen, hadd⟩ := Niching.count_add_of_fill hcut (by rwa [hsize]) hcounts hdraw hfill
  refine ⟨rfl, hlast, rfl, ?_, fun d hd => ?_⟩
  · rw [hlen, Nat.add_sub_cancel' (RankedFronts.length_complete_le _ _)]
  · rw [Run.occupancy_eq (r := ⟨_, _, _, _⟩) rfl]
    exact hadd d (by rwa [hlast])

/-- The total of niche counts is their sum over the directions. -/
theorem nicheTotal_eq_sum (counts : Array Nat) :
    nicheTotal counts = ((List.range counts.size).map (Niching.count counts)).sum := by
  have hmap : (List.range counts.size).map (Niching.count counts) = counts.toList := by
    refine List.ext_getElem (by rw [List.length_map, List.length_range, Array.length_toList])
      fun d hd hd' => ?_
    rw [List.getElem_map, List.getElem_range, Niching.count, Array.getD_eq_getD_getElem?,
      Array.getElem?_eq_getElem hd', Option.getD_some, Array.getElem_toList]
  rw [hmap, List.sum_eq_foldl, nicheTotal, Array.foldl_toList]

/-- Numbers that are one short where `p` holds have a sum that is short as often. -/
theorem sum_map_add_countP {count full : Nat → Nat} {p : Nat → Prop} [DecidablePred p]
    {ds : List Nat} (h : ∀ d ∈ ds, count d + (if p d then 1 else 0) = full d) :
    (ds.map count).sum + ds.countP p = (ds.map full).sum := by
  induction ds with
  | nil => rfl
  | cons d ds ih =>
    obtain ⟨hd, hds⟩ := List.forall_mem_cons.1 h
    rw [List.map_cons, List.sum_cons, List.countP_cons, List.map_cons, List.sum_cons, ← hd,
      ← ih hds]
    simp only [decide_eq_true_eq]
    omega

/-- **What the niche counts count.** After a first population of which every candidate
has been ranked they are the numbers of members by direction, whatever state the policy
was in. After a generation they are these numbers, less one exactly for the exhausted
directions, and sum up accordingly; the policy is in a state that requests lead to, its
generator leads to an outcome from any state in which the generation is granted, and
this holds of every outcome. -/
theorem nicheCounts_add_exhausted [SplitMix.Sampler] (p : Nsga3 α) :
    (∀ m, (p.start m).1 = .ok () →
        (∀ i < m.size, i ∈ (m.rankWith p.settings.strategy).ordered) →
        ∃ r, (p.start m).2.run = some r ∧ r.nicheCounts.size = r.directions.size
          ∧ ∀ d < r.directions.size, Niching.count r.nicheCounts d = r.occupancy d)
      ∧ ∀ dim, (Policy.nsga3 p).Reachable (some dim) → ∀ parents children : FitnessMatrix α,
        (∀ g kept, ({ p with generator := g }.nextGeneration parents children).1 = .ok kept →
            ∃ after, ({ p with generator := g }.nextGeneration parents children).2.run = some after
              ∧ p.IsOutcome parents children kept after)
          ∧ ∀ kept after, p.IsOutcome parents children kept after →
            ∃ r, p.run = some r ∧ after.nicheCounts.size = after.directions.size
              ∧ after.members
                = (kept.map (r.candidate p.settings (parents ++ children))).toArray
              ∧ (∀ d < after.directions.size, Niching.count after.nicheCounts d
                  + (if r.IsExhausted p.settings (parents ++ children) kept d then 1 else 0)
                  = after.occupancy d)
              ∧ nicheTotal after.nicheCounts
                  + (List.range after.directions.size).countP
                      (r.IsExhausted p.settings (parents ++ children) kept)
                = p.settings.populationSize := by
  refine ⟨fun m hstart hranked => ?_, fun dim h parents children =>
    ⟨fun g kept => isOutcome_nextGeneration g, fun kept after houtcome => ?_⟩⟩
  · obtain ⟨hrefused, -⟩ | ⟨-, hcheck, r, hrun, hafter⟩ := p.start_cases m
    · exact absurd hstart hrefused
    · rw [hafter]
      exact ⟨r, rfl, Run.count_nicheCounts_ofPopulation hrun hranked⟩
  · obtain ⟨draw, hdraw, source, rest, hchecked, hadvanced⟩ := houtcome
    obtain ⟨hrun, rfl, -⟩ := of_checkNext_eq_ok hchecked
    obtain ⟨-, hr⟩ := two_le_dim_of_reachable h hrun
    obtain ⟨hdirections, hsize, hmembers, hlen, hadd⟩ :=
      Run.count_nicheCounts_advance hdraw hr nodup_ordered_rankWith hadvanced
    rw [hdirections]
    refine ⟨_, hrun, hsize, hmembers, hadd, ?_⟩
    rw [nicheTotal_eq_sum, hsize, sum_map_add_countP fun d hd => hadd d (List.mem_range.1 hd),
      funext (Run.occupancy_eq hmembers),
      Niching.sum_occupancy (Run.direction_candidate_lt hr _ _), hlen]

/-- The three members are counted in full. Then a child comes, and from the generator's
state zero the first direction gets both of its candidates: it is exhausted, and the
counts account for two of three members. -/
theorem trioPolicy_nicheCounts :
    (∃ r, trioPolicy.run = some r ∧ ∀ d < r.directions.size,
        Niching.count r.nicheCounts d = r.occupancy d)
      ∧ (Policy.nsga3 trioPolicy).Reachable (some 2)
      ∧ ∃ after r, trioPolicy.IsOutcome trio fourth [2, 0, 1] after ∧ trioPolicy.run = some r
        ∧ (List.range 3).map (Niching.count after.nicheCounts) = [1, 0, 1]
        ∧ nicheTotal after.nicheCounts
            + (List.range after.directions.size).countP
                (r.IsExhausted trioPolicy.settings (trio ++ fourth) [2, 0, 1]) = 3 := by
  obtain ⟨r, hrun, -, hcounts⟩ := (nicheCounts_add_exhausted ⟨trioSettings, ⟨7⟩, none⟩).1 trio
    (by decide +kernel) (by decide +kernel)
  obtain ⟨hgenerator, hadd⟩ :=
    (nicheCounts_add_exhausted trioPolicy).2 2 reachable_trioPolicy trio fourth
  obtain ⟨after, hafter, houtcome⟩ := hgenerator ⟨0⟩ [2, 0, 1] (by decide +kernel)
  have hresult : ({ trioPolicy with generator := ⟨0⟩ }.nextGeneration trio fourth).2.run.map
      (fun r : Run Binary64 => (List.range 3).map (Niching.count r.nicheCounts))
        = some [1, 0, 1] := by decide +kernel
  obtain ⟨r', hrun', -, -, -, htotal⟩ := hadd [2, 0, 1] after houtcome
  have hsize : trioPolicy.settings.populationSize = 3 := by decide +kernel
  rw [hafter] at hresult
  rw [hsize] at htotal
  exact ⟨⟨r, hrun, hcounts⟩, reachable_trioPolicy, after, r', houtcome, hrun',
    Option.some.inj hresult, htotal⟩

end Nsga3

end ParetoSelection
