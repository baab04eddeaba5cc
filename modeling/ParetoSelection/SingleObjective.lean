import ParetoSelection.Settings

/-!
# Selection by a single objective

Parents are drawn by a tournament: some candidates are drawn, with repetition,
and the fittest of them wins, the earliest drawn among equals. Survivors are
the fittest of parents and children together, in descending order; among equals
those that come first stay, so a parent wins over an equal child.

The policy remembers nothing about a population except that there was one.

An operation of a policy returns its answer together with the policy after it.
All checks come first, and where one fails the policy comes back as it was.
-/

namespace ParetoSelection

open Scalar

variable {α : Type} [Scalar α]

/-- **The single-objective policy.** -/
structure SingleObjective where
  /-- The parameters. -/
  settings : Settings
  /-- The generator that tournaments draw from. -/
  generator : SplitMix
  /-- Whether there has been a first population. -/
  started : Bool
deriving DecidableEq, Repr

namespace SingleObjective

/-- A policy without a population, and what is left of the shared generator. -/
def create (settings : Settings) (shared : SplitMix) :
    Except SelectionError (SingleObjective × SplitMix) :=
  (settings.generator shared).map fun (own, shared) => (⟨settings, own, false⟩, shared)

/-- Refuses a matrix that does not have exactly one objective. -/
def requireOneObjective (m : FitnessMatrix α) : Except SelectionError Unit := do
  let dim ← m.objectiveCount
  if dim ≠ 1 then .error (.configuration (.notSingleObjective dim))

/-- Refuses a policy that has not had a population. -/
def requireStarted (p : SingleObjective) : Except SelectionError Unit :=
  if p.started then .ok () else .error .notInitialized

/-- The only objective of a candidate. -/
def fitness (m : FitnessMatrix α) (i : Nat) : α :=
  (m.row i).headD 0

/-- The checks of `start`. -/
def checkStart (m : FitnessMatrix α) (p : SingleObjective) : Except SelectionError Unit := do
  requireOneObjective m
  if m.size ≠ p.settings.populationSize then
    .error (.configuration (.initialSize m.size p.settings.populationSize))

/-- **Takes a first population.** -/
def start (m : FitnessMatrix α) (p : SingleObjective) :
    Except SelectionError Unit × SingleObjective :=
  match checkStart m p with
  | .error e => (.error e, p)
  | .ok () => (.ok (), { p with started := true })

/-- Called before the first parent of a generation is drawn. -/
def prepare (p : SingleObjective) : Except SelectionError Unit × SingleObjective :=
  (p.requireStarted, p)

/-- The checks of `drawParent`. -/
def checkDraw (m : FitnessMatrix α) (p : SingleObjective) : Except SelectionError Unit := do
  p.requireStarted
  requireOneObjective m
  if m.size ≠ p.settings.populationSize then
    .error (.configuration (.selectionSize m.size p.settings.populationSize))

/-- The remaining rounds of a tournament with `n` candidates, `best` being the
winner so far. -/
def playRounds [SplitMix.Sampler] (m : FitnessMatrix α) (n : Nat) :
    (rounds : Nat) → (best : Nat) → SplitMix → Nat × SplitMix
  | 0, best, g => (best, g)
  | rounds + 1, best, g =>
    let (i, g) := g.below n
    playRounds m n rounds (if fitness m best < fitness m i then i else best) g

/-- **A tournament** with the given number of participants. -/
def tournament [SplitMix.Sampler] (m : FitnessMatrix α) (n participants : Nat) (g : SplitMix) :
    Nat × SplitMix :=
  let (first, g) := g.below n
  playRounds m n (participants - 1) first g

/-- **Draws a parent.** -/
def drawParent [SplitMix.Sampler] (m : FitnessMatrix α) (p : SingleObjective) :
    Except Failure Nat × SingleObjective :=
  match checkDraw m p with
  | .error e => (.error (.error e), p)
  | .ok () =>
    let (winner, g) :=
      tournament m p.settings.populationSize p.settings.tournamentSize p.generator
    (.ok winner, { p with generator := g })

/-- **All candidates in descending order of fitness**; equal ones keep their
order. -/
def fittestFirst (m : FitnessMatrix α) : List Nat :=
  stableSort (fun i j => totalLE (fitness m j) (fitness m i)) m.candidates

/-- The checks of `nextGeneration`. -/
def checkNext (parents children : FitnessMatrix α) (p : SingleObjective) :
    Except SelectionError Unit := do
  p.requireStarted
  if parents.size ≠ p.settings.populationSize then
    .error (.configuration (.parentCount parents.size p.settings.populationSize))
  requireOneObjective (parents ++ children)

/-- **The survivors among parents and children**, as positions in
`parents ++ children`. -/
def nextGeneration (parents children : FitnessMatrix α) (p : SingleObjective) :
    Except SelectionError (List Nat) × SingleObjective :=
  match checkNext parents children p with
  | .error e => (.error e, p)
  | .ok () => (.ok ((fittestFirst (parents ++ children)).take p.settings.populationSize), p)

end SingleObjective

end ParetoSelection
