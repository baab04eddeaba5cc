import ParetoSelection.Proofs.SingleObjective

/-!
# Settings stay in order

A policy is only built from settings that are in order, and no request changes them, granted
or refused. So whatever is asked of the settings when a policy is built holds at any later
moment (`validate_settings`), for instance that there is somebody to take part in a
tournament.
-/

namespace ParetoSelection

namespace Policy

variable {α : Type} {p : Policy α}

/-! ## Creation -/

/-- The settings of a policy for a number of objectives are in order. -/
theorem validate_settings_ofObjectiveCount {objectives : Nat} {settings : Settings}
    {shared rest : SplitMix} (h : ofObjectiveCount objectives settings shared = .ok (p, rest)) :
    p.settings.validate = .ok () := by
  unfold ofObjectiveCount at h
  split at h
  · cases h
  · obtain ⟨⟨new, rest⟩, hnew, hp⟩ := exists_of_map_eq_ok h
    obtain ⟨⟨own, shared⟩, hgenerator, hcreated⟩ := exists_of_map_eq_ok hnew
    cases hcreated
    cases hp
    exact validate_of_generator hgenerator
  · obtain ⟨⟨new, rest⟩, hnew, hp⟩ := exists_of_map_eq_ok h
    obtain ⟨⟨own, shared⟩, hgenerator, hcreated⟩ := exists_of_map_eq_ok hnew
    cases hcreated
    cases hp
    exact validate_of_generator hgenerator

/-- So are those of an NSGA-II policy. -/
theorem validate_settings_ofNsga2 {settings : Settings} {shared rest : SplitMix}
    (h : ofNsga2 settings shared = .ok (p, rest)) : p.settings.validate = .ok () := by
  obtain ⟨⟨new, rest⟩, hnew, hp⟩ := exists_of_map_eq_ok h
  obtain ⟨⟨own, shared⟩, hgenerator, hcreated⟩ := exists_of_map_eq_ok hnew
  cases hcreated
  cases hp
  exact validate_of_generator hgenerator

/-! ## Requests -/

variable [Scalar α] {m parents children : FitnessMatrix α}

/-- A first population does not change the settings, granted or refused. -/
theorem settings_start : (p.start m).2.settings = p.settings := by
  by_cases hgranted : (p.start m).1 = .ok ()
  · cases p with
    | singleObjective p =>
      have hstart : (p.start m).1.mapError Failure.error = .ok () := hgranted
      show (p.start m).2.settings = p.settings
      rw [SingleObjective.start_snd_of_granted (of_mapError_eq_ok hstart)]
    | nsga2 p =>
      obtain ⟨-, hsame⟩ | ⟨-, -, hsettings, -⟩ := p.start_frame m
      · exact congrArg Nsga2.settings hsame
      · exact hsettings
    | nsga3 p =>
      obtain ⟨-, hsame⟩ | ⟨-, -, hsettings, -⟩ := p.start_frame m
      · exact congrArg Nsga3.settings hsame
      · exact hsettings
  · rw [start_snd hgranted]

/-- Drawing a parent does not change the settings. -/
theorem settings_drawParent [SplitMix.Sampler] : (p.drawParent m).2.settings = p.settings := by
  cases p with
  | singleObjective p => exact (p.drawParent_frame m).1
  | nsga2 p => exact (p.drawParent_frame m).1
  | nsga3 p => exact (p.drawParent_frame m).1

/-- Neither does a generation. -/
theorem settings_nextGeneration [SplitMix.Sampler] :
    (p.nextGeneration parents children).2.settings = p.settings := by
  cases p with
  | singleObjective p =>
    exact congrArg SingleObjective.settings (p.nextGeneration_snd parents children)
  | nsga2 p => exact (p.nextGeneration_frame parents children).1
  | nsga3 p => exact (p.nextGeneration_frame parents children).1

/-- **The settings of every policy are in order**, whatever has been asked of it. -/
theorem validate_settings [SplitMix.Sampler] {dim : Option Nat} (h : p.Reachable dim) :
    p.settings.validate = .ok () := by
  induction h with
  | ofObjectiveCount h => exact validate_settings_ofObjectiveCount h
  | ofNsga2 h => exact validate_settings_ofNsga2 h
  | start _ m _ ih => rwa [settings_start]
  | startRefused _ m _ ih => rwa [settings_start]
  | prepare _ ih => rwa [prepare_snd]
  | draw _ m ih => rwa [settings_drawParent]
  | next _ parents children ih => rwa [settings_nextGeneration]
  | @reseed p _ _ g ih => cases p <;> exact ih

end Policy

end ParetoSelection
