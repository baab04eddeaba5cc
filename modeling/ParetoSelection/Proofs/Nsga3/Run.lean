import ParetoSelection.Proofs.Corners
import ParetoSelection.Proofs.Fitness
import ParetoSelection.Proofs.Fronts.Cut
import ParetoSelection.Proofs.Nsga3.Association
import ParetoSelection.Proofs.Nsga3.Niching
import ParetoSelection.Proofs.SimplexLattice

/-!
# A generation of NSGA-III

A generation can only fail by its own bookkeeping: niche counts that miss a
member, a pool that runs empty, a direction without a candidate. None of these
happens, so a generation always has its survivors, and they are a proper choice
(`Run.advance_eq_ok`). What is asked of the run is that its directions can be
searched, which is so from the first population on; the estimates may be
anything, NaN included.

Directions and the number of objectives never change.
-/

namespace ParetoSelection

variable {α : Type} [Scalar α]

namespace Nsga3

/-! ## The number of objectives -/

/-- Looking at rows of as many objectives keeps the number of objectives. -/
theorem length_ideal_update {e : Estimates α} {m : FitnessMatrix α} {dim : Nat}
    (he : e.ideal.length = dim) (hne : 0 < m.size) (h : ∀ row ∈ m, row.length = dim) :
    (e.update m).ideal.length = dim := by
  have hrows : m.toList ≠ [] := by
    rw [← List.length_pos_iff, Array.length_toList]
    exact hne
  show (componentMax e.ideal (upperCorner m.toList)).length = dim
  rw [length_componentMax, he,
    length_upperCorner hrows fun row hrow => h row (Array.mem_toList_iff.1 hrow), Nat.min_self]

/-! ## Directions -/

/-- **The directions of a run** are a tree over the points of a lattice, scaled to unit
length. -/
theorem of_directionTree_eq_ok {settings : Settings} {dim : Nat} {t : ConeTree α}
    (h : directionTree settings dim = .ok t) :
    ∃ n, SimplexLattice.divisionCount dim settings.populationSize settings.divisions = .ok n
      ∧ ConeTree.ofPoints ((SimplexLattice.points dim n).map normalized) = .ok t := by
  obtain ⟨points, hpoints, h⟩ := exists_of_bind_eq_ok h
  obtain ⟨n, hcount, rfl⟩ := SimplexLattice.of_directions_eq_ok hpoints
  exact ⟨n, hcount, of_mapError_eq_ok h⟩

/-- They can be searched. -/
theorem isSearchable_directionTree {settings : Settings} {dim : Nat} {t : ConeTree α}
    (h : directionTree settings dim = .ok t) : t.IsSearchable := by
  obtain ⟨n, -, hbuilt⟩ := of_directionTree_eq_ok h
  exact ConeTree.isSearchable_ofPoints hbuilt

/-! ## First populations and generations -/

/-- **What the run of a first population is**: the directions that the settings ask
for, the estimates of its rows, and its members with their niche counts. -/
theorem Run.of_ofPopulation_eq_ok {settings : Settings} {m : FitnessMatrix α} {r : Run α}
    (h : Run.ofPopulation settings m = .ok r) :
    directionTree settings m.width = .ok r.directions
      ∧ r.estimates = (Estimates.before m).update m
      ∧ r.members = Association.table r.estimates r.directions m
          (m.rankWith settings.strategy).ranks (m.rankWith settings.strategy).ordered
      ∧ r.nicheCounts = Association.nicheCounts r.members r.directions.size
          (m.rankWith settings.strategy).ordered := by
  obtain ⟨directions, htree, h⟩ := exists_of_bind_eq_ok h
  dsimp only at h
  split at h
  · cases h
  · obtain rfl := Except.ok.inj h
    exact ⟨htree, rfl, rfl, rfl⟩

/-- **The run of a first population** has its number of objectives, directions to
search in, and a niche count for each of them. -/
theorem Run.ofPopulation_eq_ok {settings : Settings} {m : FitnessMatrix α} {r : Run α} {dim : Nat}
    (hr : Run.ofPopulation settings m = .ok r) (hne : 0 < m.size)
    (h : ∀ row ∈ m, row.length = dim) :
    r.dim = dim ∧ r.directions.IsSearchable ∧ r.nicheCounts.size = r.directions.size := by
  obtain ⟨htree, hestimates, -, hcounts⟩ := Run.of_ofPopulation_eq_ok hr
  have hbefore : (Estimates.before m).ideal.length = dim := by
    refine length_upperCorner ?_ fun row hrow => h row (Array.mem_toList_iff.1 hrow)
    rw [← List.length_pos_iff, Array.length_toList]
    exact hne
  refine ⟨?_, isSearchable_directionTree htree, ?_⟩
  · unfold Run.dim
    rw [hestimates]
    exact length_ideal_update hbefore hne h
  · rw [hcounts, Association.size_nicheCounts]

/-- A generation leaves the directions alone, and looks at all rows, whether or
not it has survivors. -/
theorem Run.advance_frame {σ : Type} (draw : Nat → σ → Nat × σ) (settings : Settings)
    (combined : FitnessMatrix α) (r : Run α) (source : σ) :
    (r.advance draw settings combined source).2.1.directions = r.directions
      ∧ (r.advance draw settings combined source).2.1.estimates = r.estimates.update combined := by
  unfold Run.advance
  dsimp only
  split
  · exact ⟨rfl, rfl⟩
  · split
    · exact ⟨rfl, rfl⟩
    · exact ⟨rfl, rfl⟩

/-- There is a niche count for every direction after a generation. -/
theorem Run.size_nicheCounts_advance {σ : Type} (draw : Nat → σ → Nat × σ) (settings : Settings)
    (combined : FitnessMatrix α) (r : Run α) (source : σ) :
    (r.advance draw settings combined source).2.1.nicheCounts.size = r.directions.size := by
  unfold Run.advance
  dsimp only
  generalize combined.rankWith settings.strategy = ranked
  have hsize (table : Array (Association α)) := Association.size_nicheCounts table
    r.directions.size (ranked.complete settings.populationSize)
  split
  · exact hsize _
  · split
    · rename_i hfill
      exact (congrArg (·.2.1.counts.size) hfill.symm).trans
        ((Niching.size_counts_fill _ _ _ _).trans (hsize _))
    · rename_i hfill
      exact (congrArg (·.2.1.counts.size) hfill.symm).trans
        ((Niching.size_counts_fill _ _ _ _).trans (hsize _))

/-- **A generation has its survivors**, and they are a proper choice, for any
source of draws in range. -/
theorem Run.advance_eq_ok {σ : Type} {draw : Nat → σ → Nat × σ}
    (hdraw : ∀ n source, 0 < n → (draw n source).1 < n) {settings : Settings}
    {combined : FitnessMatrix α} {r : Run α} (hr : r.directions.IsSearchable)
    (hpartition : (combined.rankWith settings.strategy).IsPartition)
    (htarget : settings.populationSize ≤ (combined.rankWith settings.strategy).size) (source : σ) :
    ∃ kept, (r.advance draw settings combined source).1 = .ok kept
      ∧ (combined.rankWith settings.strategy).IsSurvivorChoice settings.populationSize kept := by
  generalize hranked : combined.rankWith settings.strategy = ranked at hpartition htarget ⊢
  have hfits := ranked.length_complete_le settings.populationSize
  have hordered : settings.populationSize ≤ ranked.ordered.length := by
    rwa [hpartition.length_ordered]
  have henough := RankedFronts.le_length_complete_add hordered
  unfold Run.advance
  dsimp only
  rw [hranked]
  have hlt := Association.direction_lookUp_lt hr (r.estimates.update combined) combined ranked.ranks
    (ranked.complete settings.populationSize ++ ranked.overflowing settings.populationSize)
  generalize Association.table (r.estimates.update combined) r.directions combined ranked.ranks
    (ranked.complete settings.populationSize ++ ranked.overflowing settings.populationSize)
    = table at hlt ⊢
  rw [Association.requireTotal_eq_ok hlt]
  have hcounts : ∀ i, (Association.lookUp table i).direction
      < (Association.nicheCounts table r.directions.size
          (ranked.complete settings.populationSize)).size := fun i => by
    rw [Association.size_nicheCounts]
    exact hlt i
  have hplaces : settings.populationSize - (ranked.complete settings.populationSize).length
      ≤ (ranked.overflowing settings.populationSize).length := by omega
  obtain ⟨s, source', taken, hfill, hsurvivors, hlen, hsub⟩ := Niching.fill_eq_ok hdraw
    (Niching.isConsistent_initialPool hcounts (ranked.complete settings.populationSize)
      (ranked.overflowing settings.populationSize)) hplaces source
  rw [hfill]
  refine ⟨s.survivors, rfl, ?_⟩
  rw [hsurvivors]
  refine hpartition.isSurvivorChoice hsub ?_
  rw [List.length_append, hlen]
  omega

end Nsga3

end ParetoSelection
