import ParetoSelection.Proofs.Fronts.Strategy
import ParetoSelection.Proofs.Nsga3.Policy
import ParetoSelection.Proofs.Nsga3.Stores

/-!
# Generations in arrays

A generation that works on arrays reads and writes nothing that is not there, and it does what
a generation does (`Run.checkedAdvance_eq_ok`). Of the run this takes that its directions can
be searched and that there is a niche count for each of them; the counts themselves are made
anew, and nothing else of the run is looked up by a position. The same is true of the run of a
first population, whose niche counts are laid out for its directions
(`Run.checkedOpening_eq_ok`).

Every run has these two things, as it begins with them and no request changes the directions
(`Nsga3.nextGeneration_frame`).
-/

namespace ParetoSelection

variable {α : Type} [Scalar α]

namespace RankedFronts

variable (r : RankedFronts) (target : Nat)

/-- What fits is the order up to the front at the cut. -/
theorem sliceOf_complete :
    sliceOf r.ordered 0 (r.criticalFront target).first = .ok (r.complete target) := by
  obtain ⟨hfirst, hlast⟩ := r.criticalFront_bounds target
  rw [sliceOf_eq_ok (Nat.zero_le _) (Nat.le_trans hfirst hlast), List.drop_zero]
  rfl

/-- What does not fit is the front at the cut. -/
theorem sliceOf_overflowing :
    sliceOf r.ordered (r.criticalFront target).first (r.criticalFront target).last
      = .ok (r.overflowing target) :=
  sliceOf_eq_ok (r.criticalFront_bounds target).1 (r.criticalFront_bounds target).2

/-- Both are the order up to the end of that front. -/
theorem sliceOf_chosen :
    sliceOf r.ordered 0 (r.criticalFront target).last
      = .ok (r.complete target ++ r.overflowing target) := by
  obtain ⟨hfirst, hlast⟩ := r.criticalFront_bounds target
  have hcomplete : r.complete target
      = (r.ordered.take (r.criticalFront target).last).take (r.criticalFront target).first := by
    rw [List.take_take, Nat.min_eq_left hfirst]
    rfl
  rw [sliceOf_eq_ok (Nat.zero_le _) hlast, List.drop_zero, hcomplete]
  exact congrArg Except.ok (List.take_append_drop _ _).symm

end RankedFronts

namespace Association

variable {e : Estimates α} {directions : ConeTree α} {m : FitnessMatrix α} {strategy : Strategy}

/-- **Candidates of a ranked matrix are associated** with directions that can be searched. -/
theorem associate_rankWith_eq_ok (h : directions.IsSearchable) {chosen : List Nat}
    (hchosen : ∀ i ∈ chosen, i < m.size) :
    associate e directions m chosen ((m.rankWith strategy).ranks.map unassociated).toArray
      = .ok (table e directions m (m.rankWith strategy).ranks chosen) := by
  refine associate_eq_ok hchosen (fun i hi => ?_) fun i _ => h.index_find_lt _
  rw [RankedFronts.length_ranks, size_rankWith]
  exact hchosen i hi

/-- **Their members are counted**, if there is a niche count for every direction. -/
theorem recount_table_eq_ok (h : directions.IsSearchable) {counts : Array Nat}
    (hcounts : counts.size = directions.size) {chosen members : List Nat}
    (hmembers : ∀ i ∈ members, i < m.size) :
    recount (table e directions m (m.rankWith strategy).ranks chosen) counts members
      = .ok (nicheCounts (table e directions m (m.rankWith strategy).ranks chosen)
          directions.size members) := by
  rw [← hcounts]
  refine recount_eq_ok (fun i hi => ?_) fun i _ => ?_
  · rw [size_table, size_rankWith]
    exact hmembers i hi
  · rw [hcounts]
    exact direction_lookUp_lt h e m _ chosen i

end Association

namespace Nsga3

variable {settings : Settings} {m : FitnessMatrix α}

/-- **The run of a first population is made in arrays.** -/
theorem Run.checkedOpening_eq_ok {directions : ConeTree α}
    (htree : directionTree settings m.width = .ok directions)
    (hranked : m.checkedRank settings.strategy = .ok (m.rankWith settings.strategy)) :
    Run.checkedOpening settings m directions = Run.ofPopulation settings m := by
  have h := isSearchable_directionTree htree
  have hlt : ∀ i ∈ (m.rankWith settings.strategy).ordered, i < m.size :=
    fun i hi => lt_of_mem_ordered_rankWith hi
  have htotal := Association.requireTotal_eq_ok
    (Association.direction_lookUp_lt h ((Estimates.before m).update m) m
      (m.rankWith settings.strategy).ranks (m.rankWith settings.strategy).ordered)
    (m.rankWith settings.strategy).ordered
  rw [checkedOpening, ofPopulation, hranked, htree]
  simp only [ok_bind, Association.associate_rankWith_eq_ok h hlt,
    Association.recount_table_eq_ok h Array.size_replicate hlt, htotal]

variable {σ : Type} {draw : Nat → σ → Nat × σ}

/-- **A generation in arrays is a generation**, from any source of draws in range. -/
theorem Run.checkedAdvance_eq_ok (hdraw : ∀ n source, 0 < n → (draw n source).1 < n)
    {r : Run α} (hr : r.directions.IsSearchable)
    (hcounts : r.nicheCounts.size = r.directions.size)
    (hranked : m.checkedRank settings.strategy = .ok (m.rankWith settings.strategy))
    (source : σ) :
    r.checkedAdvance draw settings m source = .ok (r.advance draw settings m source) := by
  have hchosen : ∀ i ∈ (m.rankWith settings.strategy).complete settings.populationSize
      ++ (m.rankWith settings.strategy).overflowing settings.populationSize,
      i < m.size := fun i hi =>
    lt_of_mem_ordered_rankWith
      ((RankedFronts.complete_append_overflowing_prefix _ _).subset hi)
  have hcomplete := fun i hi => hchosen i (List.mem_append_left _ hi)
  have hoverflowing := fun i hi => hchosen i (List.mem_append_right _ hi)
  rw [checkedAdvance, advance, hranked]
  simp only [ok_bind, RankedFronts.sliceOf_chosen, RankedFronts.sliceOf_complete,
    RankedFronts.sliceOf_overflowing, Association.associate_rankWith_eq_ok hr hchosen,
    Association.recount_table_eq_ok hr hcounts hcomplete]
  -- all that counts from here on is that there is a table with an entry for everybody
  generalize (m.rankWith settings.strategy).complete settings.populationSize = complete
    at hcomplete ⊢
  generalize (m.rankWith settings.strategy).overflowing settings.populationSize = overflowing
    at hoverflowing ⊢
  have hdirection := Association.direction_lookUp_lt hr (r.estimates.update m) m
    (m.rankWith settings.strategy).ranks (complete ++ overflowing)
  have hsize := Association.size_table (r.estimates.update m) r.directions m
    (m.rankWith settings.strategy) (complete ++ overflowing)
  rw [size_rankWith] at hsize
  generalize Association.table (r.estimates.update m) r.directions m
    (m.rankWith settings.strategy).ranks (complete ++ overflowing) = table at hdirection hsize ⊢
  rw [Association.requireTotal_eq_ok hdirection]
  dsimp only
  have hcounted : ∀ i, (Association.lookUp table i).direction
      < (Association.nicheCounts table r.directions.size complete).size := fun i => by
    rw [Association.size_nicheCounts]
    exact hdirection i
  obtain ⟨pool, outcome, t, source', hpool, hchecked, hfill, hmembers⟩ :=
    Niching.Stores.exists_fill_checkedPool_eq_ok hdraw
      (settings.populationSize - complete.length) (fun i hi => hsize ▸ hcomplete i hi)
      (fun i hi => hsize ▸ hoverflowing i hi) hcounted source
  rw [hpool, ok_bind, hfill, hchecked, ok_bind]
  dsimp only
  cases outcome with
  | error cause => rfl
  | ok done =>
    dsimp only
    rw [hmembers]
    rfl

/-- **The survivors of a generation are found in arrays**, granted or refused, if the run can
be searched and counted. -/
theorem checkedGeneration_eq_ok [SplitMix.Sampler] {parents children : FitnessMatrix α}
    {p : Nsga3 α}
    (hrun : ∀ r, p.run = some r →
      r.directions.IsSearchable ∧ r.nicheCounts.size = r.directions.size)
    (hranked : (parents ++ children).checkedRank p.settings.strategy
      = .ok ((parents ++ children).rankWith p.settings.strategy)) :
    checkedGeneration parents children p = .ok (p.nextGeneration parents children) := by
  rw [checkedGeneration, nextGeneration]
  cases hcheck : checkNext parents children p with
  | error e => rfl
  | ok granted =>
    obtain ⟨r, combined⟩ := granted
    obtain ⟨hsome, rfl, -⟩ := of_checkNext_eq_ok hcheck
    obtain ⟨hr, hcounts⟩ := hrun r hsome
    dsimp only
    rw [Run.checkedAdvance_eq_ok (fun _ g hn => SplitMix.below_lt hn g) hr hcounts hranked]
    rfl

/-- **The winner of a tournament is read** among the members. -/
theorem checkedWinner_eq_ok {members : Array (Association α)} {i j : Nat} (hi : i < members.size)
    (hj : j < members.size) (g : SplitMix) :
    checkedWinner members i j g = .ok (nichedWinner members i j g) := by
  rw [checkedWinner, nichedWinner, Association.readAt_eq_lookUp hi, ok_bind,
    Association.readAt_eq_lookUp hj, ok_bind]
  dsimp only
  split <;> rfl

end Nsga3

end ParetoSelection
