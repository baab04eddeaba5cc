import ParetoSelection.Policy
import ParetoSelection.Proofs.Nsga2
import ParetoSelection.Proofs.Nsga3.Policy

/-!
# The states a policy can be in

A policy is created from settings, takes a first population, and is then asked
for parents and for survivors in any order, by requests that it grants or
refuses. `Policy.Reachable` is the policies that come about this way, along with
the number of objectives of the first population once there is one. The state
of the generator is left open at every moment: nothing may depend on what it
draws. The check at the boundary undoes nothing, so without it the same states
are reached.

What holds of all of them is `Policy.IsSound`: a population of at least two, at
least two objectives, the number of objectives remembered correctly, and for
NSGA-III directions that can be searched, with a niche count for each of them.
-/

namespace ParetoSelection

variable {α : Type} [Scalar α]

namespace Policy

/-- The policy with another state of its generator. -/
def reseed (g : SplitMix) : Policy α → Policy α
  | singleObjective p => singleObjective { p with generator := g }
  | nsga2 p => nsga2 { p with generator := g }
  | nsga3 p => nsga3 { p with generator := g }

/-- **The policies that requests lead to**, with the number of objectives of
the first population if there is one. -/
inductive Reachable [SplitMix.Sampler] : Policy α → Option Nat → Prop where
  /-- The policy for a number of objectives. -/
  | ofObjectiveCount {objectives : Nat} {settings : Settings} {shared rest : SplitMix}
      {p : Policy α} (h : Policy.ofObjectiveCount objectives settings shared = .ok (p, rest)) :
      Reachable p none
  /-- An NSGA-II policy. -/
  | ofNsga2 {settings : Settings} {shared rest : SplitMix} {p : Policy α}
      (h : Policy.ofNsga2 settings shared = .ok (p, rest)) : Reachable p none
  /-- A first population has been taken. -/
  | start {p : Policy α} {dim : Option Nat} (h : Reachable p dim) (m : FitnessMatrix α)
      (granted : (p.start m).1 = .ok ()) : Reachable (p.start m).2 (some m.width)
  /-- A first population has been refused. -/
  | startRefused {p : Policy α} {dim : Option Nat} (h : Reachable p dim) (m : FitnessMatrix α)
      (refused : (p.start m).1 ≠ .ok ()) : Reachable (p.start m).2 dim
  /-- A generation has begun. -/
  | prepare {p : Policy α} {dim : Option Nat} (h : Reachable p dim) : Reachable p.prepare.2 dim
  /-- A parent has been asked for. -/
  | draw {p : Policy α} {dim : Option Nat} (h : Reachable p dim) (m : FitnessMatrix α) :
      Reachable (p.drawParent m).2 dim
  /-- Survivors have been asked for. -/
  | next {p : Policy α} {dim : Option Nat} (h : Reachable p dim)
      (parents children : FitnessMatrix α) :
      Reachable (p.nextGeneration parents children).2 dim
  /-- The generator is in any other state. -/
  | reseed {p : Policy α} {dim : Option Nat} (h : Reachable p dim) (g : SplitMix) :
      Reachable (p.reseed g) dim

/-- **What holds of every policy**, given the number of objectives of its first
population. -/
inductive IsSound : Policy α → Option Nat → Prop where
  /-- Selection by one objective. -/
  | singleObjective (p : SingleObjective) (dim : Option Nat) : IsSound (.singleObjective p) dim
  /-- NSGA-II: the number of objectives is remembered. -/
  | nsga2 {p : Nsga2 α} {dim : Option Nat} (size : 2 ≤ p.settings.populationSize)
      (initialized : ∀ d, dim = some d → 2 ≤ d ∧ p.dim = d ∧ p.standings.isSome = true) :
      IsSound (.nsga2 p) dim
  /-- NSGA-III: so is it by the ideal point, and the directions can be
  searched and are counted. -/
  | nsga3 {p : Nsga3 α} {dim : Option Nat} (size : 2 ≤ p.settings.populationSize)
      (initialized : ∀ d, dim = some d →
        2 ≤ d ∧ ∃ r, p.run = some r ∧ r.dim = d ∧ r.directions.IsSearchable
          ∧ r.nicheCounts.size = r.directions.size) :
      IsSound (.nsga3 p) dim

/-! ## Creation -/

/-- **Settings that are in order** are for at least two members and at least one participant in
a tournament, and for a lattice with steps if their number is given. -/
theorem of_validate_eq_ok {settings : Settings} (h : settings.validate = .ok ()) :
    2 ≤ settings.populationSize ∧ settings.tournamentSize ≠ 0 ∧ settings.divisions ≠ some 0 := by
  unfold Settings.validate at h
  split at h
  · cases h
  · rename_i hsize
    split at h
    · cases h
    · rename_i hparticipants
      split at h
      · cases h
      · rename_i hdivisions
        exact ⟨Nat.le_of_not_lt hsize, hparticipants, hdivisions⟩

/-- A policy is only built from settings that are in order. -/
theorem validate_of_generator {settings : Settings} {shared own rest : SplitMix}
    (h : settings.generator shared = .ok (own, rest)) : settings.validate = .ok () := by
  obtain ⟨⟨⟩, hvalid, -⟩ := exists_of_map_eq_ok h
  exact hvalid

/-- So it is only built for a population of at least two. -/
theorem two_le_of_generator {settings : Settings} {shared own rest : SplitMix}
    (h : settings.generator shared = .ok (own, rest)) : 2 ≤ settings.populationSize :=
  (of_validate_eq_ok (validate_of_generator h)).1

omit [Scalar α] in
/-- A new NSGA-II policy is sound. -/
theorem isSound_nsga2_create {settings : Settings} {shared rest : SplitMix} {p : Nsga2 α}
    (h : Nsga2.create settings shared = .ok (p, rest)) : IsSound (.nsga2 p) none := by
  obtain ⟨⟨own, shared⟩, hgenerator, hcreated⟩ := exists_of_map_eq_ok h
  cases hcreated
  exact .nsga2 (two_le_of_generator hgenerator) nofun

omit [Scalar α] in
/-- A new NSGA-III policy is sound. -/
theorem isSound_nsga3_create {settings : Settings} {shared rest : SplitMix} {p : Nsga3 α}
    (h : Nsga3.create settings shared = .ok (p, rest)) : IsSound (.nsga3 p) none := by
  obtain ⟨⟨own, shared⟩, hgenerator, hcreated⟩ := exists_of_map_eq_ok h
  cases hcreated
  exact .nsga3 (two_le_of_generator hgenerator) nofun

omit [Scalar α] in
/-- The policy for a number of objectives is sound. -/
theorem isSound_ofObjectiveCount {objectives : Nat} {settings : Settings}
    {shared rest : SplitMix} {p : Policy α}
    (h : Policy.ofObjectiveCount objectives settings shared = .ok (p, rest)) :
    IsSound p none := by
  unfold Policy.ofObjectiveCount at h
  split at h
  · cases h
  · obtain ⟨⟨new, rest⟩, -, hp⟩ := exists_of_map_eq_ok h
    cases hp
    exact .singleObjective _ none
  · obtain ⟨⟨new, rest⟩, hnew, hp⟩ := exists_of_map_eq_ok h
    cases hp
    exact isSound_nsga3_create hnew

omit [Scalar α] in
/-- An NSGA-II policy is sound. -/
theorem isSound_ofNsga2 {settings : Settings} {shared rest : SplitMix} {p : Policy α}
    (h : Policy.ofNsga2 settings shared = .ok (p, rest)) : IsSound p none := by
  obtain ⟨⟨new, rest⟩, hnew, hp⟩ := exists_of_map_eq_ok h
  cases hp
  exact isSound_nsga2_create hnew

/-! ## Requests -/

variable {p : Policy α} {dim : Option Nat} {m : FitnessMatrix α}

/-- **A first population that is taken** has at least two objectives, and the
policy remembers how many. -/
theorem IsSound.start (h : IsSound p dim) (granted : (p.start m).1 = .ok ()) :
    IsSound (p.start m).2 (some m.width) := by
  cases h with
  | singleObjective p dim => exact .singleObjective _ _
  | @nsga2 p _ size initialized =>
    obtain ⟨hrefused, -⟩ | ⟨-, hwidth, hsettings, hdim, hstandings⟩ := p.start_frame m
    · have hgranted : (p.start m).1.mapError Failure.error = .ok () := granted
      exact absurd (of_mapError_eq_ok hgranted) hrefused
    · show IsSound (.nsga2 (p.start m).2) _
      refine .nsga2 (by rwa [hsettings]) fun d hd => ?_
      obtain rfl : m.width = d := Option.some.inj hd
      exact ⟨hwidth, hdim, hstandings⟩
  | @nsga3 p _ size initialized =>
    obtain ⟨hrefused, -⟩ | ⟨-, hwidth, hsettings, hrun⟩ := p.start_frame m
    · exact absurd granted hrefused
    · show IsSound (.nsga3 (p.start m).2) _
      refine .nsga3 (by rwa [hsettings]) fun d hd => ?_
      obtain rfl : m.width = d := Option.some.inj hd
      exact ⟨hwidth, hrun⟩

/-- A first population that is refused changes nothing that is known. -/
theorem IsSound.startRefused (h : IsSound p dim) (refused : (p.start m).1 ≠ .ok ()) :
    IsSound (p.start m).2 dim := by
  cases h with
  | singleObjective p dim => exact .singleObjective _ _
  | @nsga2 p _ size initialized =>
    obtain ⟨-, hsame⟩ | ⟨hok, -⟩ := p.start_frame m
    · show IsSound (.nsga2 (p.start m).2) dim
      rw [hsame]
      exact .nsga2 size initialized
    · refine absurd ?_ refused
      show (p.start m).1.mapError Failure.error = .ok ()
      rw [hok]
      rfl
  | @nsga3 p _ size initialized =>
    obtain ⟨-, hsame⟩ | ⟨hok, -⟩ := p.start_frame m
    · show IsSound (.nsga3 (p.start m).2) dim
      rw [hsame]
      exact .nsga3 size initialized
    · exact absurd hok refused

omit [Scalar α] in
/-- The beginning of a generation changes nothing that is known. -/
theorem IsSound.prepare (h : IsSound p dim) : IsSound p.prepare.2 dim := by
  cases h with
  | singleObjective p dim => exact .singleObjective _ _
  | nsga2 size initialized => exact .nsga2 size initialized
  | nsga3 size initialized => exact .nsga3 size initialized

/-- Drawing a parent changes nothing that is known. -/
theorem IsSound.drawParent [SplitMix.Sampler] (h : IsSound p dim) :
    IsSound (p.drawParent m).2 dim := by
  cases h with
  | singleObjective p dim => exact .singleObjective _ _
  | @nsga2 p _ size initialized =>
    obtain ⟨hsettings, hdim, hstandings⟩ := p.drawParent_frame m
    show IsSound (.nsga2 (p.drawParent m).2) dim
    refine .nsga2 (by rwa [hsettings]) fun d hd => ?_
    rw [hdim, hstandings]
    exact initialized d hd
  | @nsga3 p _ size initialized =>
    obtain ⟨hsettings, hrun⟩ := p.drawParent_frame m
    show IsSound (.nsga3 (p.drawParent m).2) dim
    refine .nsga3 (by rwa [hsettings]) fun d hd => ?_
    rw [hrun]
    exact initialized d hd

/-- **A generation changes nothing that is known**, granted or refused. -/
theorem IsSound.nextGeneration [SplitMix.Sampler] (h : IsSound p dim)
    (parents children : FitnessMatrix α) :
    IsSound (p.nextGeneration parents children).2 dim := by
  cases h with
  | singleObjective p dim => exact .singleObjective _ _
  | @nsga2 p _ size initialized =>
    obtain ⟨hsettings, hdim, hstandings⟩ := p.nextGeneration_frame parents children
    show IsSound (.nsga2 (p.nextGeneration parents children).2) dim
    refine .nsga2 (by rwa [hsettings]) fun d hd => ?_
    obtain ⟨htwo, hd, hsome⟩ := initialized d hd
    exact ⟨htwo, hdim.trans hd, hstandings hsome⟩
  | @nsga3 p _ size initialized =>
    obtain ⟨hsettings, hrun⟩ := p.nextGeneration_frame parents children
    show IsSound (.nsga3 (p.nextGeneration parents children).2) dim
    refine .nsga3 (by rwa [hsettings]) fun d hd => ?_
    obtain ⟨htwo, r, hsome, hd, hsearchable, hcounts⟩ := initialized d hd
    obtain ⟨r', hrun', hdim, hdirections, hcounts'⟩ := hrun r hsome
    exact ⟨htwo, r', hrun', hdim.trans hd, by rwa [hdirections], hcounts' hcounts⟩

omit [Scalar α] in
/-- The state of the generator is of no account. -/
theorem IsSound.reseed (h : IsSound p dim) (g : SplitMix) : IsSound (p.reseed g) dim := by
  cases h with
  | singleObjective p dim => exact .singleObjective _ _
  | nsga2 size initialized => exact .nsga2 size initialized
  | nsga3 size initialized => exact .nsga3 size initialized

/-- **All policies are sound.** -/
theorem Reachable.isSound [SplitMix.Sampler] (h : Reachable p dim) : IsSound p dim := by
  induction h with
  | ofObjectiveCount h => exact isSound_ofObjectiveCount h
  | ofNsga2 h => exact isSound_ofNsga2 h
  | start _ m granted ih => exact ih.start granted
  | startRefused _ m refused ih => exact ih.startRefused refused
  | prepare _ ih => exact ih.prepare
  | draw _ m ih => exact ih.drawParent
  | next _ parents children ih => exact ih.nextGeneration parents children
  | reseed _ g ih => exact ih.reseed g

end Policy

end ParetoSelection
