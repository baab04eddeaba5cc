import ParetoSelection.Proofs.Fronts.Countdown
import ParetoSelection.Proofs.Nsga3.Checked
import ParetoSelection.Proofs.Nsga3.WellFormed

/-!
# Nothing is read that is not there

A position that does not exist is looked up as a default value, so that every request
has an answer whether or not it stays within the data. `IsDefinedFor` says that it
does: rows, directions, niche counts and candidates are only looked up at positions
that exist, points that are combined have as many coordinates, no counter is lowered
below zero, and draws are made from ranges that are not empty. On arrays, where an
access outside them is a failure, the request is answered as it is with default values.

This is so for every request to a policy whose run fits together
(`isDefinedFor_of_isWellFormed`). Most of it is due to the invariant of the run; that
the pool of directions stays within the niche counts, and the remaining candidates
within the matrix, is kept by every move of a candidate (`Niching.IsWithin.of_moveIn`).
-/

namespace ParetoSelection

variable {α : Type} [Scalar α]

/-! ## Ranking -/

/-- **A matrix that can be ranked**: its rows can be compared, no finder reads past the
end of a row, no counter is lowered below zero while fronts are taken away, and only
candidates are placed. -/
structure FitnessMatrix.IsRankable (m : FitnessMatrix α) (strategy : Strategy) : Prop where
  /-- All rows are equally long. -/
  length_row : ∀ row ∈ m, row.length = m.width
  /-- The finder of the strategy reads only what is there. -/
  checkedRank_eq : m.checkedRank strategy = .ok (m.rankWith strategy)
  /-- The fronts are taken away one after the other, and no counter is lowered below zero. -/
  exists_runs : ∃ s, Countdown.Runs (Pairwise.beaten m) (Countdown.start
    ⟨Pairwise.dominatorCounts m, Pairwise.beaten m,
      Pairwise.firstFront m (Pairwise.dominatorCounts m)⟩) s
  /-- Whoever is placed is a candidate. -/
  lt_size : ∀ i ∈ (m.rankWith strategy).ordered, i < m.size

/-- **Rows with two objectives or more can be ranked.** -/
theorem FitnessMatrix.isRankable {m : FitnessMatrix α} {dim : Nat}
    (hcount : m.objectiveCount = .ok dim) (hdim : 2 ≤ dim) (strategy : Strategy) :
    m.IsRankable strategy := by
  obtain ⟨-, hwidth, hrows⟩ := of_objectiveCount_eq_ok hcount
  refine ⟨hwidth ▸ hrows, checkedRank_eq_ok (fun i hi => ?_) ?_, ?_, fun i hi => ?_⟩
  · exact row_ne_nil hrows (Nat.zero_lt_of_lt hdim) hi
  · rw [hwidth]
    exact Nat.ne_of_gt hdim
  · obtain ⟨s, hruns, -⟩ :=
      (Countdown.isSound_start m).exists_runs (Nat.le_add_right m.size _)
    exact ⟨s, hruns⟩
  · exact lt_of_mem_ordered_rankWith hi

/-! ## Estimates and associations -/

/-- **Rows that estimates can take up**: there is one, and they, the extreme points and
the ideal are equally long. -/
structure Estimates.IsDefinedOn (e : Estimates α) (m : FitnessMatrix α) : Prop where
  /-- There is a row. -/
  size_pos : 0 < m.size
  /-- All rows are as long as the ideal. -/
  length_row : ∀ row ∈ m, row.length = e.ideal.length
  /-- So are the extreme points. -/
  length_extreme : ∀ p ∈ e.extremes, p.length = e.ideal.length

/-- **Candidates that can be associated**: they have a row, which is as long as every
direction when it is normalized, the search finds a direction for it, and this one has a
niche count. -/
structure Association.IsDefinedOn (e : Estimates α) (directions : ConeTree α)
    (m : FitnessMatrix α) (ranks chosen : List Nat) : Prop where
  /-- There is a direction to begin the search with. -/
  size_pos : 0 < directions.size
  /-- Every candidate has a row. -/
  lt_size : ∀ i ∈ chosen, i < m.size
  /-- Every candidate has a rank. -/
  lt_length : ∀ i ∈ chosen, i < ranks.length
  /-- Its row is as long as the directions. -/
  length_normalize : ∀ i ∈ chosen, ∀ p ∈ directions.points,
    p.length = (e.normalize (m.row i)).length
  /-- The search finds a direction. -/
  index_lt : ∀ i ∈ chosen, (directions.find (e.normalize (m.row i))).index < directions.size
  /-- The direction of a candidate has a niche count. -/
  direction_lt : ∀ i ∈ chosen,
    (lookUp (table e directions m ranks chosen) i).direction < directions.size

/-- **Candidates of a matrix can be associated** with the directions of a run over its
objectives. -/
theorem Association.isDefinedOn {settings : Settings} {dim : Nat} {directions : ConeTree α}
    (htree : Nsga3.directionTree settings dim = .ok directions) {e : Estimates α}
    (he : e.HasShape dim) {m : FitnessMatrix α} (hrows : ∀ row ∈ m, row.length = dim)
    {chosen : List Nat} (hchosen : ∀ i ∈ chosen, i < m.size) (strategy : Strategy) :
    IsDefinedOn e directions m (m.rankWith strategy).ranks chosen where
  size_pos := (Nsga3.isSearchable_directionTree htree).size_pos
  lt_size := hchosen
  lt_length i hi := by
    rw [RankedFronts.length_ranks, size_rankWith]
    exact hchosen i hi
  length_normalize i hi p hp := by
    rw [he.length_normalize (hrows _ (FitnessMatrix.row_mem (hchosen i hi)))]
    exact Nsga3.length_of_mem_directions htree p hp
  index_lt i _ := (Nsga3.isSearchable_directionTree htree).index_find_lt _
  direction_lt i _ :=
    direction_lookUp_lt (Nsga3.isSearchable_directionTree htree) e m _ chosen i

/-! ## Filling -/

namespace Niching

variable {σ : Type}

/-- **Filling that stays within the data.** Whenever a candidate is to move in, every
direction of the pool has a niche count, the remaining candidates are below the given
bound, the range to draw from is not empty, and the place that is drawn is one of the
pool. -/
def FillIsDefined (assoc : Nat → Association α) (draw : Nat → σ → Nat × σ) (candidates : Nat) :
    (places : Nat) → (s : Niching) → (source : σ) → Prop
  | 0, _, _ => True
  | places + 1, s, source =>
    s.pool ≠ [] →
      (∀ d ∈ s.pool, d < s.counts.size) ∧ (∀ i ∈ s.remaining, i < candidates)
        ∧ 0 < s.minimalCount ∧ (draw s.minimalCount source).1 < s.pool.length
        ∧ ∀ s', s.moveIn assoc (draw s.minimalCount source).1 = some s' →
          FillIsDefined assoc draw candidates places s' (draw s.minimalCount source).2

/-- **Filling stays within the data**, from any source of draws in range. -/
theorem fillIsDefined {assoc : Nat → Association α} {draw : Nat → σ → Nat × σ}
    (hdraw : ∀ n source, 0 < n → (draw n source).1 < n) {candidates : Nat} (places : Nat)
    {s : Niching} (h : s.IsWithin candidates) (source : σ) :
    FillIsDefined assoc draw candidates places s source := by
  induction places generalizing s source with
  | zero => exact trivial
  | succ places ih =>
    intro hne
    obtain ⟨hpos, hle⟩ := minimalCount_bounds hne
    have hplace := Nat.lt_of_lt_of_le (hdraw _ source hpos) hle
    exact ⟨h.pool_lt, h.remaining_lt, hpos, hplace,
      fun s' hmove => ih (h.of_moveIn hplace hmove) _⟩

end Niching

namespace Nsga3

/-! ## Requests -/

/-- **A first population that can be looked at.** -/
structure OpeningIsDefined (settings : Settings) (m : FitnessMatrix α) (directions : ConeTree α) :
    Prop where
  /-- It can be ranked. -/
  isRankable : m.IsRankable settings.strategy
  /-- Estimates can be made of it. -/
  estimates : (Estimates.before m).IsDefinedOn m
  /-- Its members can be associated. -/
  associated : Association.IsDefinedOn ((Estimates.before m).update m) directions m
    (m.rankWith settings.strategy).ranks (m.rankWith settings.strategy).ordered
  /-- Its run is made in arrays. -/
  checkedOpening_eq : Run.checkedOpening settings m directions = Run.ofPopulation settings m

/-- **A generation that can be looked at.** -/
structure Run.AdvanceIsDefined {σ : Type} (draw : Nat → σ → Nat × σ) (settings : Settings)
    (combined : FitnessMatrix α) (r : Run α) (source : σ) : Prop where
  /-- It can be ranked. -/
  isRankable : combined.IsRankable settings.strategy
  /-- The front at the cut is within the order of the candidates. -/
  cut : ((combined.rankWith settings.strategy).criticalFront settings.populationSize).first
      ≤ ((combined.rankWith settings.strategy).criticalFront settings.populationSize).last
    ∧ ((combined.rankWith settings.strategy).criticalFront settings.populationSize).last
      ≤ (combined.rankWith settings.strategy).ordered.length
  /-- Estimates can be made of it. -/
  estimates : r.estimates.IsDefinedOn combined
  /-- The candidates up to the cut can be associated. -/
  associated : Association.IsDefinedOn (r.estimates.update combined) r.directions combined
    (combined.rankWith settings.strategy).ranks
    ((combined.rankWith settings.strategy).complete settings.populationSize
      ++ (combined.rankWith settings.strategy).overflowing settings.populationSize)
  /-- There is a niche count for every direction. -/
  size_nicheCounts : r.nicheCounts.size = r.directions.size
  /-- Filling stays within the data, whatever the counts are that it starts with. -/
  fill : ∀ counts : Array Nat, counts.size = r.directions.size →
    Niching.FillIsDefined (r.candidate settings combined) draw combined.size
      (settings.populationSize
        - ((combined.rankWith settings.strategy).complete settings.populationSize).length)
      ⟨(combined.rankWith settings.strategy).complete settings.populationSize,
        (combined.rankWith settings.strategy).overflowing settings.populationSize,
        Niching.initialPool (r.candidate settings combined) counts
          ((combined.rankWith settings.strategy).overflowing settings.populationSize), counts⟩
      source
  /-- The generation is made in arrays. -/
  checkedAdvance_eq :
    r.checkedAdvance draw settings combined source = .ok (r.advance draw settings combined source)
  /-- Every survivor is one of the candidates. -/
  survivors : ∀ kept, (r.advance draw settings combined source).1 = .ok kept →
    ∀ i ∈ kept, i < combined.size

/-- **A request that stays within the data**, if it passes its checks. -/
def IsDefinedFor [SplitMix.Sampler] (p : Nsga3 α) : Request α → Prop
  | .start m => ∀ directions, checkStart m p = .ok () →
    directionTree p.settings m.width = .ok directions → OpeningIsDefined p.settings m directions
  | .draw m => ∀ r, checkDraw m p = .ok r →
    0 < r.members.size ∧ (p.generator.below r.members.size).1 < r.members.size
      ∧ ((p.generator.below r.members.size).2.below r.members.size).1 < r.members.size
      ∧ ∀ i < r.members.size, ∀ j < r.members.size, ∀ g,
          checkedWinner r.members i j g = .ok (nichedWinner r.members i j g)
  | .next parents children => ∀ r combined, checkNext parents children p = .ok (r, combined) →
    r.AdvanceIsDefined SplitMix.below p.settings combined p.generator
  | .prepare | .reseed _ => True

/-- **A generation stays within the data**, if the run fits together. -/
theorem Run.advanceIsDefined {σ : Type} {draw : Nat → σ → Nat × σ}
    (hdraw : ∀ n source, 0 < n → (draw n source).1 < n) {settings : Settings} {r : Run α}
    (hr : r.IsWellFormed settings r.dim) {combined : FitnessMatrix α}
    (hcount : combined.objectiveCount = .ok r.dim) (source : σ) :
    r.AdvanceIsDefined draw settings combined source := by
  obtain ⟨hne, -, hrows⟩ := FitnessMatrix.of_objectiveCount_eq_ok hcount
  have hrankable := FitnessMatrix.isRankable hcount hr.two_le_dim settings.strategy
  have hchosen : ∀ i ∈ (combined.rankWith settings.strategy).complete settings.populationSize
      ++ (combined.rankWith settings.strategy).overflowing settings.populationSize,
      i < combined.size := fun i hi =>
    hrankable.lt_size i ((RankedFronts.complete_append_overflowing_prefix _ _).subset hi)
  refine ⟨hrankable, RankedFronts.criticalFront_bounds _ _,
    ⟨hne, hrows, hr.hasShape.length_extreme⟩, ?_, hr.size_nicheCounts, fun counts hcounts => ?_,
    Run.checkedAdvance_eq_ok hdraw (isSearchable_directionTree hr.directionTree_eq)
      hr.size_nicheCounts hrankable.checkedRank_eq source,
    fun kept hkept i hi => ?_⟩
  · exact Association.isDefinedOn hr.directionTree_eq
      (hr.hasShape.update (Nat.zero_lt_of_lt hr.two_le_dim) hne hrows) hrows hchosen _
  · exact Niching.fillIsDefined hdraw _ (Niching.isWithin_initialPool counts
      (fun i hi => hchosen i (List.mem_append_left _ hi))
      fun i hi => hchosen i (List.mem_append_right _ hi)) source
  · obtain ⟨cause, herror, -⟩ | ⟨kept', hok, -, hsub, -⟩ :=
      Run.advance_cases hdraw settings combined r source
    · cases hkept.symm.trans herror
    · obtain rfl := Except.ok.inj (hok.symm.trans hkept)
      exact hchosen i (hsub i hi)

/-- **Every request stays within the data**, if the run fits together. -/
theorem isDefinedFor_of_isWellFormed [SplitMix.Sampler] {p : Nsga3 α}
    (hsize : 2 ≤ p.settings.populationSize)
    (h : ∀ r, p.run = some r → r.IsWellFormed p.settings r.dim) (q : Request α) :
    p.IsDefinedFor q := by
  cases q with
  | start m =>
    intro directions hcheck htree
    obtain ⟨hcount, hwidth, -⟩ := of_checkStart_eq_ok hcheck
    obtain ⟨hne, -, hrows⟩ := FitnessMatrix.of_objectiveCount_eq_ok hcount
    have hrankable := FitnessMatrix.isRankable hcount hwidth p.settings.strategy
    have hbefore : (Estimates.before m).ideal.length = m.width :=
      length_upperCorner (List.length_pos_iff.1 hne) fun row hrow =>
        hrows row (Array.mem_toList_iff.1 hrow)
    refine ⟨hrankable, ⟨hne, ?_, fun p hp => absurd hp List.not_mem_nil⟩, ?_,
      Run.checkedOpening_eq_ok htree hrankable.checkedRank_eq⟩
    · rw [hbefore]
      exact hrows
    · exact Association.isDefinedOn htree
        (Estimates.hasShape_before_update (Nat.zero_lt_of_lt hwidth) hne hrows) hrows
        hrankable.lt_size _
  | prepare => exact trivial
  | draw m =>
    intro r hcheck
    have hpos : 0 < r.members.size := by
      rw [(h r (of_checkDraw_eq_ok hcheck).1).size_members]
      exact Nat.zero_lt_of_lt hsize
    exact ⟨hpos, SplitMix.below_lt hpos _, SplitMix.below_lt hpos _,
      fun i hi j hj g => checkedWinner_eq_ok hi hj g⟩
  | next parents children =>
    intro r combined hcheck
    obtain ⟨hrun, -, hcount⟩ := of_checkNext_eq_ok hcheck
    exact Run.advanceIsDefined (fun _ g hn => SplitMix.below_lt hn g) (h r hrun) hcount p.generator
  | reseed g => exact trivial

/-! ## Any requests -/

/-- **Every request is answered, or refused with an error that is reported**, if the run
fits together and there is room for the directions of a first population. -/
theorem exists_of_perform_eq_error [SplitMix.Sampler] {p : Nsga3 α}
    (hsize : 2 ≤ p.settings.populationSize) (hdivisions : p.settings.divisions ≠ some 0)
    (h : ∀ r, p.run = some r → r.IsWellFormed p.settings r.dim) {q : Request α}
    (hroom : ∀ m, q = .start m → HasRoom p.settings m.width) {f : Failure}
    (hfailed : (p.perform q).1 = .error f) : ∃ e, f = .error e := by
  cases q with
  | start m =>
    have hstart : (p.start m).1 = .error f := of_map_eq_error hfailed
    cases hcheck : checkStart m p with
    | error e =>
      unfold start at hstart
      rw [hcheck] at hstart
      exact ⟨e, (Except.error.inj hstart).symm⟩
    | ok _ =>
      rw [start_eq_ok hcheck hdivisions (hroom m rfl)] at hstart
      cases hstart
  | prepare =>
    obtain ⟨e, -, rfl⟩ := exists_of_mapError_eq_error (of_map_eq_error hfailed)
    exact ⟨e, rfl⟩
  | draw m =>
    have hdraw : (p.drawParent m).1 = .error f := of_map_eq_error hfailed
    cases hcheck : checkDraw m p with
    | error e =>
      unfold drawParent at hdraw
      rw [hcheck] at hdraw
      exact ⟨e, (Except.error.inj hdraw).symm⟩
    | ok r =>
      obtain ⟨hrun, hmembers⟩ := of_checkDraw_eq_ok hcheck
      have hpos : 0 < r.members.size := by
        rw [(h r hrun).size_members]
        exact Nat.zero_lt_of_lt hsize
      obtain ⟨i, hok, -⟩ := drawParent_eq_ok hrun hmembers hpos
      rw [hok] at hdraw
      cases hdraw
  | next parents children =>
    obtain ⟨e, -, rfl⟩ := exists_of_mapError_eq_error (of_map_eq_error hfailed)
    exact ⟨e, rfl⟩
  | reseed g => cases hfailed

/-- **A policy is in order after any requests, and answers the next one.** Its run fits
together, over the objectives and with the directions of the first population that was
taken last: the points of the lattice, scaled to unit length and rearranged. Every
request that there is room for stays within the data, and what it does not grant it
refuses with an error that is reported. A parent is always drawn from a matrix with a row
for every member, and is one of the members. -/
theorem isWellFormed_run [SplitMix.Sampler] {settings : Settings} {shared rest : SplitMix}
    {p : Nsga3 α} (hnew : create settings shared = .ok (p, rest)) (requests : List (Request α)) :
    (∀ r, ((Session.ofPolicy p).run requests).policy.run = some r →
        ∃ m n, ((Session.ofPolicy p).run requests).past.head? = some m
          ∧ r.dim = m.width ∧ r.IsWellFormed settings r.dim
          ∧ SimplexLattice.divisionCount r.dim settings.populationSize settings.divisions = .ok n
          ∧ r.directions.points.toList.Perm ((SimplexLattice.points r.dim n).map normalized))
      ∧ (∀ q : Request α, (∀ m, q = .start m → HasRoom settings m.width) →
        ((Session.ofPolicy p).run requests).policy.IsDefinedFor q
          ∧ ∀ f, (((Session.ofPolicy p).run requests).policy.perform q).1 = .error f →
            ∃ e, f = .error e)
      ∧ ∀ (r : Run α) (m : FitnessMatrix α),
        ((Session.ofPolicy p).run requests).policy.run = some r →
        m.size = settings.populationSize →
        ∃ i, (((Session.ofPolicy p).run requests).policy.drawParent m).1 = .ok i
          ∧ i < settings.populationSize := by
  obtain ⟨hsettings, hnone, hsize, hdivisions⟩ := of_create_eq_ok hnew
  have hrun := (isInvariant_isWellFormed settings).run hsettings hnone requests
  have hkept : ((Session.ofPolicy p).run requests).policy.settings = settings :=
    (Session.settings_run _ requests).trans hsettings
  generalize (Session.ofPolicy p).run requests = s at hrun hkept ⊢
  have hwell : ∀ r, s.policy.run = some r → r.IsWellFormed settings r.dim := by
    intro r hr
    obtain ⟨-, m, -, hdim, hwell⟩ := hrun r hr
    rwa [hdim]
  refine ⟨fun r hr => ?_, fun q hroom => ⟨?_, fun f hfailed => ?_⟩, fun r m hr hm => ?_⟩
  · obtain ⟨-, m, hhead, hdim, -⟩ := hrun r hr
    obtain ⟨n, hcount, hbuilt⟩ := of_directionTree_eq_ok (hwell r hr).directionTree_eq
    exact ⟨m, n, hhead, hdim, hwell r hr, hcount, ConeTree.points_perm_of_ofPoints_eq_ok hbuilt⟩
  · exact isDefinedFor_of_isWellFormed (by rwa [hkept]) (by rwa [hkept]) q
  · exact exists_of_perform_eq_error (by rwa [hkept]) (by rwa [hkept]) (by rwa [hkept])
      (by rwa [hkept]) hfailed
  · have hmembers := (hwell r hr).size_members
    have hpos : 0 < r.members.size := by
      rw [hmembers]
      exact Nat.zero_lt_of_lt hsize
    rw [← hmembers] at hm ⊢
    exact drawParent_eq_ok hr hm hpos

/-- The first two of three candidates that dominate one another in a circle, and then the
third as their child. -/
def circling : List (Request Binary64) :=
  let parents : FitnessMatrix Binary64 := #[nearTies.row 0, nearTies.row 1]
  [.start parents, .next parents #[nearTies.row 2]]

/-- The generation places nobody, and has no survivors. Its estimates and niche counts
stay, along with the members of the first population, from which parents are drawn. -/
theorem circling_isWellFormed :
    ∃ (p : Nsga3 Binary64) (rest : SplitMix) (r : Run Binary64),
      create { populationSize := 2, seed := some 7 } ⟨0⟩ = .ok (p, rest)
        ∧ (((Session.ofPolicy p).run (circling.take 1)).policy.perform
            (.next #[nearTies.row 0, nearTies.row 1] #[nearTies.row 2])).1
          = .error (.error (.violation (.poolExhausted 0 2)))
        ∧ ((Session.ofPolicy p).run circling).policy.run = some r
        ∧ r.nicheCounts = #[0, 0, 0] ∧ r.members.size = 2
        ∧ r.IsWellFormed { populationSize := 2, seed := some 7 } r.dim
        ∧ HasRoom { populationSize := 2, seed := some 7 } 3
        ∧ ((Session.ofPolicy p).run circling).policy.IsDefinedFor (.start nearTies)
        ∧ ∃ i, (((Session.ofPolicy p).run circling).policy.drawParent
            #[nearTies.row 0, nearTies.row 1]).1 = .ok i ∧ i < 2 := by
  have hnew : create (α := Binary64) { populationSize := 2, seed := some 7 } ⟨0⟩
      = .ok (⟨{ populationSize := 2, seed := some 7 }, ⟨7⟩, none⟩, ⟨0⟩) := rfl
  generalize hp : (⟨{ populationSize := 2, seed := some 7 }, ⟨7⟩, none⟩ : Nsga3 Binary64) = p
    at hnew
  have hfatal : (((Session.ofPolicy p).run (circling.take 1)).policy.nextGeneration
      #[nearTies.row 0, nearTies.row 1] #[nearTies.row 2]).1
        = .error (.violation (.poolExhausted 0 2)) := by
    subst hp
    decide +kernel
  have hcounts : ((Session.ofPolicy p).run circling).policy.run.map
      (fun r => (r.nicheCounts, r.members.size)) = some (#[0, 0, 0], 2) := by
    subst hp
    decide +kernel
  obtain ⟨r, hr, hcounts⟩ := Option.map_eq_some_iff.1 hcounts
  have hroom : HasRoom { populationSize := 2, seed := some 7 } 3 := by
    intro n hn
    obtain rfl : SimplexLattice.nearestDivisions 3 2 = n := Except.ok.inj hn
    decide +kernel
  obtain ⟨hwell, hdefined, hdraw⟩ := isWellFormed_run hnew circling
  obtain ⟨-, -, -, -, hwell, -⟩ := hwell r hr
  refine ⟨p, ⟨0⟩, r, hnew, ?_, hr, congrArg Prod.fst hcounts, congrArg Prod.snd hcounts, hwell,
    hroom, ?_, hdraw r #[nearTies.row 0, nearTies.row 1] hr rfl⟩
  · exact congrArg (fun x => (x.mapError Failure.error).map Reply.survivors) hfatal
  · refine (hdefined (.start nearTies) fun m hm => ?_).1
    obtain rfl := Request.start.inj hm
    exact hroom

/-- **Not every lattice that can be counted can be held.** The settings are in order, the
size of the lattice is a 64-bit word, and taking a first population fails. -/
theorem vastLattice_start :
    SimplexLattice.size 2 1000000000000000000 = 1000000000000000001
      ∧ ∃ (p : Nsga3 Binary64) (rest : SplitMix),
        create { populationSize := 2, seed := some 7, divisions := some 1000000000000000000 } ⟨0⟩
            = .ok (p, rest)
          ∧ (p.perform (.start #[[0, 1], [1, 0]])).1 = .error .tooLarge := by
  refine ⟨by decide +kernel, ⟨_, ⟨7⟩, none⟩, ⟨0⟩, rfl, ?_⟩
  decide +kernel

end Nsga3

end ParetoSelection
