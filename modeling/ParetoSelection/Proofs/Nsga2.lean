import ParetoSelection.Nsga2
import ParetoSelection.Proofs.Fitness
import ParetoSelection.Proofs.Fronts.Cut

/-!
# The requests to NSGA-II

The places that complete fronts leave free are taken by the most isolated
members of the next front. That front has members enough, because the fronts
up to the cut suffice for any population that there are candidates for.
Crowding distances decide who of the front stays, and nothing else: the choice
is a proper one for any distances, also for those that cannot be compared.

No request changes the settings, and none but a first population the number of
objectives; once there are standings there always are.
-/

namespace ParetoSelection

variable {α : Type}

namespace Nsga2

/-! ## Checks -/

section Checks

variable {m parents children : FitnessMatrix α} {p : Nsga2 α}

/-- A first population that passes the checks has at least two objectives. -/
theorem of_checkStart_eq_ok {dim : Nat} (h : checkStart m p = .ok dim) :
    m.objectiveCount = .ok dim ∧ 2 ≤ dim := by
  obtain ⟨dim', hcount, h⟩ := exists_of_bind_eq_ok h
  obtain ⟨hdim, h⟩ := of_guard_eq_ok h
  obtain ⟨-, h⟩ := of_guard_eq_ok h
  obtain rfl : dim' = dim := Except.ok.inj h
  exact ⟨hcount, Nat.le_of_not_lt hdim⟩

/-- Parents and children pass the checks if the parents are the population and
all rows have the number of objectives of the run. -/
theorem checkNext_eq_ok (hp : p.standings.isSome = true)
    (hparents : parents.size = p.settings.populationSize)
    (hcount : (parents ++ children).objectiveCount = .ok p.dim) :
    checkNext parents children p = .ok (parents ++ children) := by
  obtain ⟨standings, hsome⟩ := Option.isSome_iff_exists.1 hp
  unfold checkNext requireStandings
  rw [hsome]
  refine (if_neg (not_not_intro hparents)).trans ?_
  dsimp only
  rw [hcount]
  exact if_neg (not_not_intro rfl)

/-- Parents and children that pass the checks are put together, the parents are the
population, and all rows have the number of objectives of the run. -/
theorem of_checkNext_eq_ok {combined : FitnessMatrix α}
    (h : checkNext parents children p = .ok combined) :
    combined = parents ++ children ∧ parents.size = p.settings.populationSize
      ∧ combined.objectiveCount = .ok p.dim := by
  obtain ⟨_, -, h⟩ := exists_of_bind_eq_ok h
  obtain ⟨hsize, h⟩ := of_guard_eq_ok h
  obtain ⟨dim, hcount, h⟩ := exists_of_bind_eq_ok h
  obtain ⟨hdim, h⟩ := of_guard_eq_ok h
  obtain rfl : parents ++ children = combined := Except.ok.inj h
  rw [Decidable.of_not_not hdim] at hcount
  exact ⟨rfl, Decidable.of_not_not hsize, hcount⟩

/-- The standings that are required are the standings there are. -/
theorem of_requireStandings_eq_ok {standings : Array (Standing α)}
    (h : requireStandings p = .ok standings) : p.standings = some standings := by
  unfold requireStandings at h
  split at h
  · cases h
  · rename_i hsome
    rw [hsome, Except.ok.inj h]

/-- A matrix to draw from that passes the checks has a row for every standing. -/
theorem of_checkDraw_eq_ok {standings : Array (Standing α)}
    (h : checkDraw m p = .ok standings) :
    p.standings = some standings ∧ m.size = standings.size := by
  obtain ⟨standings', hsome, h⟩ := exists_of_bind_eq_ok h
  obtain ⟨hsize, h⟩ := of_guard_eq_ok h
  obtain rfl : standings' = standings := Except.ok.inj h
  exact ⟨of_requireStandings_eq_ok hsome, Decidable.of_not_not hsize⟩

end Checks

/-! ## Survivors -/

variable [Scalar α]

/-- **The survivors are a proper choice**, whatever the standings are. -/
theorem isSurvivorChoice_survivors {ranked : RankedFronts} (h : ranked.IsPartition)
    (standings : Array (Standing α)) {target : Nat} (htarget : target ≤ ranked.size) :
    ranked.IsSurvivorChoice target (survivors ranked standings target) := by
  have hperm : (mostIsolatedFirst standings (ranked.overflowing target)).Perm
      (ranked.overflowing target) := stableSort_perm _ _
  unfold survivors
  refine h.isSurvivorChoice ((List.take_sublist _ _).subperm.trans hperm.subperm) ?_
  have hfits := ranked.length_complete_le target
  have hordered : target ≤ ranked.ordered.length := by rwa [h.length_ordered]
  have henough := RankedFronts.le_length_complete_add hordered
  rw [List.length_append, List.length_take, hperm.length_eq]
  omega

/-- **A generation that passes the checks has its survivors.** -/
theorem nextGeneration_eq_ok {parents children combined : FitnessMatrix α} {p : Nsga2 α}
    (hcheck : checkNext parents children p = .ok combined)
    (hpartition : (combined.rankWith p.settings.strategy).IsPartition)
    (htarget : p.settings.populationSize ≤ (combined.rankWith p.settings.strategy).size) :
    ∃ kept, (p.nextGeneration parents children).1 = .ok kept
      ∧ (combined.rankWith p.settings.strategy).IsSurvivorChoice p.settings.populationSize
          kept := by
  unfold nextGeneration
  rw [hcheck]
  exact ⟨_, rfl, isSurvivorChoice_survivors hpartition _ htarget⟩

/-! ## What requests leave alone -/

variable (m parents children : FitnessMatrix α) (p : Nsga2 α)

/-- A first population that is refused changes nothing; one that is taken is
remembered by its number of objectives and its standings. -/
theorem start_frame :
    ((p.start m).1 ≠ .ok () ∧ (p.start m).2 = p)
      ∨ ((p.start m).1 = .ok () ∧ 2 ≤ m.width ∧ (p.start m).2.settings = p.settings
          ∧ (p.start m).2.dim = m.width ∧ (p.start m).2.standings.isSome = true) := by
  unfold start
  cases hcheck : checkStart m p with
  | error e =>
    refine .inl ⟨fun h => ?_, rfl⟩
    cases h
  | ok dim =>
    obtain ⟨hcount, hdim⟩ := of_checkStart_eq_ok hcheck
    obtain ⟨-, hwidth, -⟩ := FitnessMatrix.of_objectiveCount_eq_ok hcount
    exact .inr ⟨rfl, hwidth ▸ hdim, rfl, hwidth.symm, rfl⟩

/-- Drawing a parent changes nothing but the generator. -/
theorem drawParent_frame [SplitMix.Sampler] : (p.drawParent m).2.settings = p.settings
    ∧ (p.drawParent m).2.dim = p.dim ∧ (p.drawParent m).2.standings = p.standings := by
  unfold drawParent
  split
  · exact ⟨rfl, rfl, rfl⟩
  · dsimp only
    split
    · exact ⟨rfl, rfl, rfl⟩
    · exact ⟨rfl, rfl, rfl⟩

/-- A generation changes nothing but the standings. -/
theorem nextGeneration_frame : (p.nextGeneration parents children).2.settings = p.settings
    ∧ (p.nextGeneration parents children).2.dim = p.dim
    ∧ (p.standings.isSome = true →
        (p.nextGeneration parents children).2.standings.isSome = true) := by
  unfold nextGeneration
  split
  · exact ⟨rfl, rfl, id⟩
  · exact ⟨rfl, rfl, fun _ => rfl⟩

end Nsga2

end ParetoSelection
