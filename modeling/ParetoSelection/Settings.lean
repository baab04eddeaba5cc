import ParetoSelection.Failure
import ParetoSelection.Fronts.Strategy
import ParetoSelection.SplitMix

/-!
# Settings of a selection policy

The parameters that all policies share. A policy is only built from settings
that are in order (`Settings.validate`), and then takes its own generator: the
one of its seed, or one seeded by the shared generator, which is not touched
otherwise – not even by settings that are refused.
-/

namespace ParetoSelection

/-- **The parameters of a selection policy.** -/
structure Settings where
  /-- The number of survivors of a generation. -/
  populationSize : Nat := 100
  /-- The seed of the policy's own generator; without one, the shared generator
  provides it. -/
  seed : Option UInt64 := none
  /-- Whether candidates may be associated with directions in parallel. No
  result depends on it. -/
  parallel : Bool := true
  /-- The ranking algorithm. -/
  strategy : Strategy := .pairwise
  /-- The division count of the lattice of reference directions; without one,
  the lattice has about as many points as the population has members. -/
  divisions : Option Nat := none
  /-- The number of participants in a single-objective tournament. -/
  tournamentSize : Nat := 2
deriving DecidableEq, Repr

namespace Settings

/-- The usual settings for a population of the given size. -/
def ofPopulationSize (populationSize : Nat) : Settings :=
  { populationSize }

/-- The settings for a population of the given size, with the ranking algorithm
that suits it: elimination from 200 members on. -/
def suitedTo (populationSize : Nat) : Settings :=
  { populationSize, strategy := if populationSize < 200 then .pairwise else .best }

/-- **Whether the settings are in order**, or the first reason why not. -/
def validate (s : Settings) : Except SelectionError Unit :=
  if s.populationSize < 2 then .error (.configuration .populationTooSmall)
  else if s.tournamentSize = 0 then .error (.configuration .emptyTournament)
  else if s.divisions = some 0 then .error (.configuration .zeroDivisionSetting)
  else .ok ()

/-- **The generator of a policy with these settings**, and what is left of the
shared one. -/
def generator (s : Settings) (shared : SplitMix) : Except SelectionError (SplitMix × SplitMix) :=
  s.validate.map fun _ =>
    match s.seed with
    | some seed => (⟨seed⟩, shared)
    | none => (⟨shared.next.1⟩, shared.step)

end Settings

end ParetoSelection
