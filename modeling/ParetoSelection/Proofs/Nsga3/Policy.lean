import ParetoSelection.Proofs.Nsga3.Run
import ParetoSelection.Proofs.SplitMix

/-!
# The requests to NSGA-III

A generation that passes the checks is a generation of the run, with draws from
the policy's own generator. Whatever state that is in, the draws are in range,
so there are always survivors (`nextGeneration_eq_ok`).

No request changes the settings, and none but a first population the number of
objectives or the directions; once there is a run there always is.
-/

namespace ParetoSelection

variable {α : Type} [Scalar α]

namespace Nsga3

variable {m parents children combined : FitnessMatrix α} {p : Nsga3 α} {r : Run α}

/-! ## Checks -/

omit [Scalar α] in
/-- A first population that passes the checks has at least two objectives, and as
many members as the settings ask for. -/
theorem of_checkStart_eq_ok (h : checkStart m p = .ok ()) :
    m.objectiveCount = .ok m.width ∧ 2 ≤ m.width ∧ m.size = p.settings.populationSize := by
  obtain ⟨dim, hcount, h⟩ := exists_of_bind_eq_ok h
  obtain ⟨hdim, hrest⟩ := of_guard_eq_ok h
  obtain ⟨-, rfl, -⟩ := FitnessMatrix.of_objectiveCount_eq_ok hcount
  refine ⟨hcount, Nat.le_of_not_lt hdim, Decidable.of_not_not fun hsize => ?_⟩
  dsimp only at hrest
  rw [if_pos hsize] at hrest
  cases hrest

omit [Scalar α] in
/-- A first population with as many members as the settings ask for, and two objectives at
least, passes the checks. -/
theorem checkStart_eq_ok {dim : Nat} (hcount : m.objectiveCount = .ok dim) (hdim : 2 ≤ dim)
    (hsize : m.size = p.settings.populationSize) : checkStart m p = .ok () := by
  unfold checkStart
  rw [hcount]
  refine (if_neg (Nat.not_lt_of_le hdim)).trans ?_
  exact if_neg (not_not_intro hsize)

omit [Scalar α] in
/-- The run that is required is the run there is. -/
theorem of_requireRun_eq_ok (h : requireRun p = .ok r) : p.run = some r := by
  unfold requireRun at h
  split at h
  · cases h
  · rename_i hsome
    rw [hsome, Except.ok.inj h]

omit [Scalar α] in
/-- Parents and children that pass the checks have the number of objectives of
the run. -/
theorem of_checkNext_eq_ok (h : checkNext parents children p = .ok (r, combined)) :
    p.run = some r ∧ combined = parents ++ children ∧ combined.objectiveCount = .ok r.dim := by
  obtain ⟨r', hrun, h⟩ := exists_of_bind_eq_ok h
  obtain ⟨-, h⟩ := of_guard_eq_ok h
  obtain ⟨dim, hcount, h⟩ := exists_of_bind_eq_ok h
  obtain ⟨hdim, h⟩ := of_guard_eq_ok h
  obtain ⟨rfl, rfl⟩ : r' = r ∧ parents ++ children = combined := Prod.mk.inj (Except.ok.inj h)
  exact ⟨of_requireRun_eq_ok hrun, rfl, by rw [hcount, Decidable.of_not_not hdim]⟩

omit [Scalar α] in
/-- Parents that pass the checks are as many as the population has members. -/
theorem size_of_checkNext_eq_ok (h : checkNext parents children p = .ok (r, combined)) :
    parents.size = p.settings.populationSize := by
  obtain ⟨_, -, h⟩ := exists_of_bind_eq_ok h
  exact Decidable.of_not_not (of_guard_eq_ok h).1

omit [Scalar α] in
/-- Parents and children pass the checks if the parents are the population and
all rows have the number of objectives of the run. -/
theorem checkNext_eq_ok (hr : p.run = some r)
    (hparents : parents.size = p.settings.populationSize)
    (hcount : (parents ++ children).objectiveCount = .ok r.dim) :
    checkNext parents children p = .ok (r, parents ++ children) := by
  unfold checkNext requireRun
  rw [hr]
  refine (if_neg (not_not_intro hparents)).trans ?_
  dsimp only
  rw [hcount]
  exact if_neg (not_not_intro rfl)

omit [Scalar α] in
/-- A matrix to draw from that passes the checks has a row for every member. -/
theorem of_checkDraw_eq_ok (h : checkDraw m p = .ok r) :
    p.run = some r ∧ m.size = r.members.size := by
  obtain ⟨r', hrun, h⟩ := exists_of_bind_eq_ok h
  obtain ⟨hsize, h⟩ := of_guard_eq_ok h
  obtain rfl : r' = r := Except.ok.inj h
  exact ⟨of_requireRun_eq_ok hrun, Decidable.of_not_not hsize⟩

/-! ## Parents -/

/-- One of two candidates wins. -/
theorem nichedWinner_eq (members : Array (Association α)) (i j : Nat) (g : SplitMix) :
    (nichedWinner members i j g).1 = i ∨ (nichedWinner members i j g).1 = j := by
  unfold nichedWinner
  dsimp only
  split
  · dsimp only
    split
    · split
      · exact .inl rfl
      · exact .inr rfl
    · split
      · exact .inl rfl
      · exact .inr rfl
  · dsimp only
    split
    · exact .inl rfl
    · exact .inr rfl

/-- **A parent is drawn** from a matrix with a row for every member, and it is one of
the members. -/
theorem drawParent_eq_ok [SplitMix.Sampler] (hrun : p.run = some r)
    (hsize : m.size = r.members.size) (hpos : 0 < r.members.size) :
    ∃ i, (p.drawParent m).1 = .ok i ∧ i < r.members.size := by
  have hcheck : checkDraw m p = .ok r := by
    unfold checkDraw requireRun
    rw [hrun]
    exact if_neg (not_not_intro hsize)
  unfold drawParent
  rw [hcheck]
  dsimp only
  rw [if_neg (Nat.ne_of_gt hpos)]
  refine ⟨_, rfl, ?_⟩
  obtain hwinner | hwinner := nichedWinner_eq r.members
    (p.generator.below r.members.size).1
    ((p.generator.below r.members.size).2.below r.members.size).1
    ((p.generator.below r.members.size).2.below r.members.size).2
  · rw [hwinner]
    exact SplitMix.below_lt hpos _
  · rw [hwinner]
    exact SplitMix.below_lt hpos _

/-! ## Survivors -/

/-- **A generation that passes the checks has its survivors.** -/
theorem nextGeneration_eq_ok [SplitMix.Sampler]
    (hcheck : checkNext parents children p = .ok (r, combined)) (hr : r.directions.IsSearchable)
    (hpartition : (combined.rankWith p.settings.strategy).IsPartition)
    (htarget : p.settings.populationSize ≤ (combined.rankWith p.settings.strategy).size) :
    ∃ kept, (p.nextGeneration parents children).1 = .ok kept
      ∧ (combined.rankWith p.settings.strategy).IsSurvivorChoice p.settings.populationSize
          kept := by
  unfold nextGeneration
  rw [hcheck]
  exact Run.advance_eq_ok (fun _ g hn => SplitMix.below_lt hn g) hr hpartition htarget p.generator

/-! ## What requests leave alone -/

variable (m parents children p)

/-- **What taking a first population does**: it passes the checks and a run begins, or
nothing changes. -/
theorem start_cases :
    ((p.start m).1 ≠ .ok () ∧ (p.start m).2 = p)
      ∨ ((p.start m).1 = .ok () ∧ checkStart m p = .ok ()
          ∧ ∃ r, Run.ofPopulation p.settings m = .ok r
            ∧ (p.start m).2 = { p with run := some r }) := by
  unfold start
  split
  · refine .inl ⟨fun h => ?_, rfl⟩
    cases h
  · rename_i r hstart
    obtain ⟨⟨⟩, hcheck, hrun⟩ := exists_of_bind_eq_ok hstart
    exact .inr ⟨rfl, of_mapError_eq_ok hcheck, r, hrun, rfl⟩

/-- A first population that is refused changes nothing; one that is taken
starts a run over its number of objectives, with a niche count for every direction. -/
theorem start_frame :
    ((p.start m).1 ≠ .ok () ∧ (p.start m).2 = p)
      ∨ ((p.start m).1 = .ok () ∧ 2 ≤ m.width ∧ (p.start m).2.settings = p.settings
          ∧ ∃ r, (p.start m).2.run = some r ∧ r.dim = m.width ∧ r.directions.IsSearchable
            ∧ r.nicheCounts.size = r.directions.size) := by
  obtain hrefused | ⟨hok, hcheck, r, hrun, hafter⟩ := start_cases m p
  · exact .inl hrefused
  · obtain ⟨hcount, hdim, -⟩ := of_checkStart_eq_ok hcheck
    obtain ⟨hne, -, hrows⟩ := FitnessMatrix.of_objectiveCount_eq_ok hcount
    rw [hafter]
    exact .inr ⟨hok, hdim, rfl, r, rfl, Run.ofPopulation_eq_ok hrun hne hrows⟩

/-- Drawing a parent changes nothing but the generator. -/
theorem drawParent_frame [SplitMix.Sampler] :
    (p.drawParent m).2.settings = p.settings ∧ (p.drawParent m).2.run = p.run := by
  unfold drawParent
  split
  · exact ⟨rfl, rfl⟩
  · dsimp only
    split
    · exact ⟨rfl, rfl⟩
    · exact ⟨rfl, rfl⟩

/-- A generation keeps the number of objectives and the directions of the run,
also if it is refused, and there is still a niche count for every direction. -/
theorem nextGeneration_frame [SplitMix.Sampler] :
    (p.nextGeneration parents children).2.settings = p.settings
      ∧ ∀ r, p.run = some r → ∃ r', (p.nextGeneration parents children).2.run = some r'
          ∧ r'.dim = r.dim ∧ r'.directions = r.directions
          ∧ (r.nicheCounts.size = r.directions.size →
              r'.nicheCounts.size = r'.directions.size) := by
  unfold nextGeneration
  split
  · exact ⟨rfl, fun r hr => ⟨r, hr, rfl, rfl, id⟩⟩
  · rename_i r' combined hcheck
    refine ⟨rfl, fun r hr => ?_⟩
    obtain ⟨hsome, -, hcount⟩ := of_checkNext_eq_ok hcheck
    obtain rfl : r = r' := Option.some.inj (hr.symm.trans hsome)
    obtain ⟨hne, -, hrows⟩ := FitnessMatrix.of_objectiveCount_eq_ok hcount
    obtain ⟨hdirections, hestimates⟩ :=
      Run.advance_frame SplitMix.below p.settings combined r p.generator
    refine ⟨_, rfl, ?_, hdirections, fun _ => ?_⟩
    · unfold Run.dim
      rw [hestimates]
      exact length_ideal_update rfl hne hrows
    · exact (Run.size_nicheCounts_advance _ _ _ _ _).trans
        (congrArg ConeTree.size hdirections).symm

end Nsga3

end ParetoSelection
