import ParetoSelection.Proofs.Fronts.Survival
import ParetoSelection.Proofs.Nsga3.Outcome
import ParetoSelection.Proofs.Standings

/-!
# The ranks that a policy remembers

A policy over several objectives ranks parents and children together, and remembers
of every survivor the rank that it had in that ranking. It never ranks the new
population by itself, but if it did it would find the same ranks, position by
position (`memberRanks_eq_ranks`); so the members that it reports as optimal are those
that no other member dominates.

This needs a matrix that is ranked by dominance alone, and survivors that are a
proper choice. The latter holds for every generation that has survivors at all:
NSGA-II takes the front at the cut from one end, and NSGA-III, whatever it draws,
takes candidates of that front until the places are filled.
-/

namespace ParetoSelection

variable {α : Type} [Scalar α]

/-! ## What is remembered of a candidate -/

/-- The rank of a candidate is remembered whether it is associated with a direction or not. -/
theorem Association.rank_lookUp_table (e : Estimates α) (directions : ConeTree α)
    (m : FitnessMatrix α) (ranked : RankedFronts) (chosen : List Nat) {i : Nat}
    (hi : i < ranked.size) :
    (lookUp (table e directions m ranked.ranks chosen) i).rank = ranked.rank i := by
  unfold lookUp table RankedFronts.ranks
  rw [Array.getD_eq_getD_getElem?, List.getElem?_toArray, List.getElem?_mapIdx, List.getElem?_map,
    List.getElem?_range hi]
  show (if chosen.contains i then _ else _ : Association α).rank = _
  split
  · rfl
  · rfl

/-! ## The survivors of NSGA-III -/

namespace Nsga3

/-- **Survivors are a proper choice** whenever there are survivors, for any run and
any draws in range, and the run remembers their ranks. -/
theorem Run.isSurvivorChoice_of_advance {σ : Type} {draw : Nat → σ → Nat × σ}
    (hdraw : ∀ n source, 0 < n → (draw n source).1 < n) {settings : Settings}
    {combined : FitnessMatrix α} {r after : Run α}
    (hpartition : (combined.rankWith settings.strategy).IsPartition) {source rest : σ}
    {kept : List Nat}
    (h : r.advance draw settings combined source = (.ok kept, after, rest)) :
    (combined.rankWith settings.strategy).IsSurvivorChoice settings.populationSize kept
      ∧ after.members.toList.map (·.rank)
          = kept.map (combined.rankWith settings.strategy).rank := by
  unfold Run.advance at h
  generalize combined.rankWith settings.strategy = ranked at h hpartition ⊢
  have hrank {i : Nat} := Association.rank_lookUp_table (r.estimates.update combined) r.directions
    combined ranked
    (ranked.complete settings.populationSize ++ ranked.overflowing settings.populationSize)
    (i := i)
  dsimp only at h
  split at h
  · cases congrArg (·.1) h
  · split at h
    · cases congrArg (·.1) h
    · rename_i s rest' hfill
      obtain ⟨hkept, hafter, -⟩ :
          Except.ok s.survivors = Except.ok kept ∧ _ = after ∧ rest' = rest :=
        (Prod.mk.inj h).imp_right Prod.mk.inj
      obtain rfl := Except.ok.inj hkept
      obtain ⟨taken, hlen, hsurvivors, hperm, -⟩ := Niching.fill_invariant hdraw
        (P := fun _ _ => True) (fun _ _ _ _ => trivial) [] trivial hfill
      have hchoice : ranked.IsSurvivorChoice settings.populationSize s.survivors := by
        rw [hsurvivors]
        refine hpartition.isSurvivorChoice
          ((List.sublist_append_left _ _).subperm.trans hperm.subperm) ?_
        rw [List.length_append, hlen,
          Nat.add_sub_cancel' (ranked.length_complete_le settings.populationSize)]
      refine ⟨hchoice, ?_⟩
      rw [← hafter, List.map_map]
      exact List.map_congr_left fun i hi => hrank (hchoice.lt_size i hi)

/-- A generation with survivors has chosen them properly, and its run remembers their
ranks. -/
theorem of_nextGeneration_eq_ok [SplitMix.Sampler] {p : Nsga3 α}
    {parents children : FitnessMatrix α}
    {kept : List Nat} (hkept : (p.nextGeneration parents children).1 = .ok kept)
    (hpartition : ((parents ++ children).rankWith p.settings.strategy).IsPartition) :
    ((parents ++ children).rankWith p.settings.strategy).IsSurvivorChoice
        p.settings.populationSize kept
      ∧ ∃ r, (p.nextGeneration parents children).2.run = some r
        ∧ r.members.toList.map (·.rank)
          = kept.map ((parents ++ children).rankWith p.settings.strategy).rank := by
  obtain ⟨after, hafter, ⟨draw, hdraw, source, rest, hchecked, hadvanced⟩⟩ :=
    isOutcome_nextGeneration p.generator hkept
  obtain ⟨-, rfl, -⟩ := of_checkNext_eq_ok hchecked
  obtain ⟨hchoice, hranks⟩ := Run.isSurvivorChoice_of_advance hdraw hpartition hadvanced
  exact ⟨hchoice, after, hafter, hranks⟩

end Nsga3

/-! ## The survivors of NSGA-II -/

namespace Nsga2

/-- A generation with survivors has chosen them properly, and their ranks are
remembered. -/
theorem of_nextGeneration_eq_ok {p : Nsga2 α} {parents children : FitnessMatrix α}
    {kept : List Nat} (hkept : (p.nextGeneration parents children).1 = .ok kept)
    (hpartition : ((parents ++ children).rankWith p.settings.strategy).IsPartition) :
    ((parents ++ children).rankWith p.settings.strategy).IsSurvivorChoice
        p.settings.populationSize kept
      ∧ ∃ standings, (p.nextGeneration parents children).2.standings = some standings
        ∧ standings.toList.map (·.rank)
          = kept.map ((parents ++ children).rankWith p.settings.strategy).rank := by
  unfold nextGeneration at hkept ⊢
  cases hcheck : checkNext parents children p with
  | error e =>
    rw [hcheck] at hkept
    cases hkept
  | ok combined =>
    obtain ⟨rfl, hsize, -⟩ := of_checkNext_eq_ok hcheck
    have htarget : p.settings.populationSize
        ≤ ((parents ++ children).rankWith p.settings.strategy).size := by
      rw [size_rankWith, Array.size_append, hsize]
      exact Nat.le_add_right _ _
    rw [hcheck] at hkept
    dsimp only at hkept ⊢
    generalize (parents ++ children).rankWith p.settings.strategy = ranked at *
    obtain rfl := Except.ok.inj hkept
    have hchoice := isSurvivorChoice_survivors hpartition
      (Standing.table (parents ++ children) ranked) htarget
    refine ⟨hchoice, _, rfl, ?_⟩
    rw [List.map_map]
    exact List.map_congr_left fun i hi =>
      congrArg Standing.rank (Standing.getD_table _ _ (hchoice.lt_size i hi))

end Nsga2

namespace Policy

/-! ## What a policy remembers -/

/-- **The ranks of the members that a policy remembers**, if it is one over several
objectives and has a population. -/
def memberRanks? : Policy α → Option (List Nat)
  | singleObjective _ => none
  | nsga2 p => p.standings.map fun standings => standings.toList.map (·.rank)
  | nsga3 p => p.run.map fun r => r.members.toList.map (·.rank)

omit [Scalar α] in
/-- Counting down members of rank zero by their ranks alone. -/
theorem filter_rank_eq_zero {β : Type} (rank : β → Nat) {absent : β} (habsent : rank absent = 0)
    (members : Array β) :
    ((List.range members.size).filter fun i => rank (members.getD i absent) = 0)
      = (List.range (members.toList.map rank).length).filter fun i =>
          (members.toList.map rank).getD i 0 = 0 := by
  rw [List.length_map, Array.length_toList]
  refine List.filter_congr fun i _ => ?_
  rw [← habsent, List.getD_map, List.getD_eq_getElem?_getD, Array.getElem?_toList,
    Array.getD_eq_getD_getElem?]

/-- **The optimal members are those of rank zero.** -/
theorem optimal?_eq (p : Policy α) :
    p.optimal? = p.memberRanks?.map fun ranks =>
      (List.range ranks.length).filter fun i => ranks.getD i 0 = 0 := by
  cases p with
  | singleObjective p => rfl
  | nsga2 p =>
    show p.standings.map _ = (p.standings.map _).map _
    rw [Option.map_map]
    exact congrArg (p.standings.map ·) (funext (filter_rank_eq_zero Standing.rank rfl))
  | nsga3 p =>
    show p.run.map _ = (p.run.map _).map _
    rw [Option.map_map]
    refine congrArg (p.run.map ·) (funext fun r => ?_)
    exact filter_rank_eq_zero Association.rank rfl r.members

/-- **A generation with survivors** has chosen them properly, and the policy remembers
the ranks that they had. -/
theorem of_nextUnchecked_eq_ok [SplitMix.Sampler] {p : Policy α} (hkind : p.kind ≠ .singleObjective)
    {parents children : FitnessMatrix α} {kept : List Nat}
    (hkept : (p.nextUnchecked parents children).1 = .ok kept)
    (hpartition : ((parents ++ children).rankWith p.settings.strategy).IsPartition) :
    ((parents ++ children).rankWith p.settings.strategy).IsSurvivorChoice p.populationSize kept
      ∧ (p.nextUnchecked parents children).2.memberRanks?
        = some (kept.map ((parents ++ children).rankWith p.settings.strategy).rank) := by
  cases p with
  | singleObjective p => exact absurd rfl hkind
  | nsga2 p =>
    obtain ⟨hchoice, standings, hstandings, hranks⟩ :=
      Nsga2.of_nextGeneration_eq_ok hkept hpartition
    exact ⟨hchoice, (congrArg (Option.map _) hstandings).trans (congrArg some hranks)⟩
  | nsga3 p =>
    obtain ⟨hchoice, r, hrun, hranks⟩ := Nsga3.of_nextGeneration_eq_ok hkept hpartition
    exact ⟨hchoice, (congrArg (Option.map _) hrun).trans (congrArg some hranks)⟩

/-- **What passes the check at the boundary has been found before it**, and the state
after the generation is the same with and without the check. -/
theorem of_nextGeneration_eq_ok [SplitMix.Sampler] {p : Policy α}
    {parents children : FitnessMatrix α}
    {kept : List Nat} (h : (p.nextGeneration parents children).1 = .ok kept) :
    (p.nextUnchecked parents children).1 = .ok kept
      ∧ (p.nextGeneration parents children).2 = (p.nextUnchecked parents children).2 := by
  refine ⟨?_, rfl⟩
  change (p.nextUnchecked parents children).1.bind _ = .ok kept at h
  cases hfound : (p.nextUnchecked parents children).1 with
  | error e =>
    rw [hfound] at h
    cases h
  | ok found =>
    rw [hfound] at h
    exact congrArg Except.ok (checkSurvivors_eq_ok_iff.1 h).1.symm

/-- **Remembered ranks are the ranks of the new population.** The policy may be in any
state in which the generation has survivors, with the check at the boundary or without
it. Either dominators are counted and dominance among parents and children has no cycle,
or their values are not confused by the tolerance. Then ranking the survivors alone, in
the order in which they were returned, gives exactly the remembered ranks, and the
members that are reported as optimal are those that no other member dominates, each once
and in order. -/
theorem memberRanks_eq_ranks [SplitMix.Sampler] {p : Policy Binary64}
    (hkind : p.kind ≠ .singleObjective)
    {parents children : FitnessMatrix Binary64} {kept : List Nat} {after : Policy Binary64}
    (hkept : p.nextUnchecked parents children = (.ok kept, after)
      ∨ p.nextGeneration parents children = (.ok kept, after))
    (hranked : p.settings.strategy = .pairwise ∧ (parents ++ children).IsAcyclic
      ∨ (parents ++ children).IsSeparated) :
    after.memberRanks?
        = some (((parents ++ children).pick kept).rankWith p.settings.strategy).ranks
      ∧ ∃ best, after.optimal? = some best
        ∧ best.Pairwise (· < ·)
        ∧ ∀ j, j ∈ best ↔ j < kept.length ∧ ∀ i < kept.length, i ≠ j →
            dominates (((parents ++ children).pick kept).row i)
              (((parents ++ children).pick kept).row j) = false := by
  obtain ⟨hfound, rfl⟩ : (p.nextUnchecked parents children).1 = .ok kept
      ∧ (p.nextUnchecked parents children).2 = after := by
    obtain hkept | hkept := hkept
    · rw [hkept]
      exact ⟨rfl, rfl⟩
    · obtain ⟨hfound, hafter⟩ := of_nextGeneration_eq_ok (congrArg (·.1) hkept)
      rw [hkept] at hafter
      exact ⟨hfound, hafter.symm⟩
  have hrankable : (parents ++ children).IsRankedBy Binary64.grade p.settings.strategy :=
    hranked.imp_right FitnessMatrix.IsSeparated.isGraded
  obtain ⟨hchoice, hremembered⟩ := of_nextUnchecked_eq_ok hkind hfound hrankable.isRanking.1
  have hlt : ∀ i ∈ kept, i < (parents ++ children).size := fun i hi => by
    have hi := hchoice.lt_size i hi
    rwa [size_rankWith] at hi
  rw [← FitnessMatrix.ranks_pick_eq hrankable hchoice] at hremembered
  refine ⟨hremembered, _, by rw [optimal?_eq, hremembered]; rfl,
    List.pairwise_lt_range.filter _, fun j => ?_⟩
  rw [(hrankable.pick hlt).mem_filter_ranks_iff, FitnessMatrix.size_pick]

/-- Three members, of which the second dominates the others. -/
def peak : FitnessMatrix Binary64 :=
  #[[⟨0x3ff0000000000000⟩, ⟨0x4000000000000000⟩], [⟨0x4008000000000000⟩, ⟨0x4008000000000000⟩],
    [⟨0x4000000000000000⟩, ⟨0x3ff0000000000000⟩]]

/-- A child between the two that are dominated. -/
def between : FitnessMatrix Binary64 :=
  #[[⟨0x3ff8000000000000⟩, ⟨0x3ff8000000000000⟩]]

/-- The NSGA-II policy of the three members. -/
def peakPolicy : Policy Binary64 :=
  (Policy.start peak (nsga2 ⟨{ populationSize := 3, seed := some 7 }, ⟨7⟩, none, 0⟩)).2

/-- The cut goes through the second front, and the survivors are ranked as before. -/
theorem peakPolicy_memberRanks :
    peakPolicy.kind ≠ .singleObjective ∧ (peak ++ between).IsSeparated
      ∧ (peakPolicy.nextGeneration peak between).1 = .ok [1, 0, 2]
      ∧ (peakPolicy.nextGeneration peak between).2.memberRanks? = some [0, 1, 1]
      ∧ (((peak ++ between).pick [1, 0, 2]).rankWith peakPolicy.settings.strategy).ranks
          = [0, 1, 1] := by
  have hkind : peakPolicy.kind ≠ .singleObjective := by decide +kernel
  have hseparated : (peak ++ between).IsSeparated :=
    { length_eq := by decide +kernel
      width_pos := by decide +kernel
      isFinite := by decide +kernel
      separated := by decide +kernel
      one_zero := by decide +kernel }
  have hkept : (peakPolicy.nextGeneration peak between).1 = .ok [1, 0, 2] := by decide +kernel
  have hremembered : (peakPolicy.nextGeneration peak between).2.memberRanks? = some [0, 1, 1] := by
    decide +kernel
  obtain ⟨hranks, -⟩ := memberRanks_eq_ranks hkind (.inr (Prod.ext hkept rfl)) (.inr hseparated)
  exact ⟨hkind, hseparated, hkept, hremembered, Option.some.inj (hranks.symm.trans hremembered)⟩

end Policy

end ParetoSelection
