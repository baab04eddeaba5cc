import ParetoSelection.Crowding
import ParetoSelection.Settings

/-!
# NSGA-II

Survivors are taken front by front as long as whole fronts fit; of the front
that does not, the most isolated members stay. Parents are drawn by a binary
tournament on the same two criteria: the lower rank wins, and within a rank the
larger crowding distance.

Both criteria of every member are computed when the population is formed, from
the fronts of the candidates it was chosen from, and kept with the policy, so
drawing parents never ranks anything.
-/

namespace ParetoSelection

open Scalar

variable {α : Type} [Scalar α]

/-- **What a member of the population is judged by.** -/
structure Standing (α : Type) where
  /-- The position of its front. -/
  rank : Nat
  /-- Its crowding distance within that front. -/
  crowding : α
deriving DecidableEq, Repr

namespace Standing

/-- A candidate in no front. -/
def lost : Standing α := ⟨0, 0⟩

/-- **Whether the first is preferred**: by rank, then by crowding distance. -/
def isPreferred (a b : Standing α) : Bool :=
  a.rank < b.rank || (a.rank = b.rank && b.crowding < a.crowding)

/-- The crowding distances of all candidates, each within its front; a
candidate in no front has distance zero. -/
def crowdingTable (m : FitnessMatrix α) (ranked : RankedFronts) : Array α :=
  (ranked.fronts.flatMap fun front => front.zip (m.crowdingOf front)).foldl
    (fun table (i, d) => table.setIfInBounds i d) (Array.replicate ranked.size 0)

/-- **The standings of all candidates.** -/
def table (m : FitnessMatrix α) (ranked : RankedFronts) : Array (Standing α) :=
  let crowding := crowdingTable m ranked
  (ranked.ranks.mapIdx fun i rank => ⟨rank, crowding.getD i 0⟩).toArray

end Standing

/-- **The NSGA-II policy.** -/
structure Nsga2 (α : Type) where
  /-- The parameters. -/
  settings : Settings
  /-- The generator that tournaments draw from. -/
  generator : SplitMix
  /-- The standing of every member of the population, once there is one. -/
  standings : Option (Array (Standing α))
  /-- The number of objectives of the first population. -/
  dim : Nat
deriving DecidableEq, Repr

namespace Nsga2

/-- A policy without a population, and what is left of the shared generator. -/
def create (settings : Settings) (shared : SplitMix) :
    Except SelectionError (Nsga2 α × SplitMix) :=
  (settings.generator shared).map fun (own, shared) => (⟨settings, own, none, 0⟩, shared)

/-- The standings of the population, or a refusal if there is none yet. -/
def requireStandings (p : Nsga2 α) : Except SelectionError (Array (Standing α)) :=
  match p.standings with
  | none => .error .notInitialized
  | some standings => .ok standings

/-- The checks of `start`, with the number of objectives. -/
def checkStart (m : FitnessMatrix α) (p : Nsga2 α) : Except SelectionError Nat := do
  let dim ← m.objectiveCount
  if dim < 2 then .error (.configuration (.nsga2NeedsTwo dim))
  if m.size ≠ p.settings.populationSize then
    .error (.configuration (.initialSize m.size p.settings.populationSize))
  return dim

/-- **Takes a first population.** -/
def start (m : FitnessMatrix α) (p : Nsga2 α) : Except SelectionError Unit × Nsga2 α :=
  match checkStart m p with
  | .error e => (.error e, p)
  | .ok dim =>
    let ranked := m.rankWith p.settings.strategy
    (.ok (), { p with standings := some (Standing.table m ranked), dim })

/-- Called before the first parent of a generation is drawn. -/
def prepare (p : Nsga2 α) : Except SelectionError Unit × Nsga2 α :=
  (p.requireStandings.map fun _ => (), p)

/-- The checks of `drawParent`, with the standings. -/
def checkDraw (m : FitnessMatrix α) (p : Nsga2 α) :
    Except SelectionError (Array (Standing α)) := do
  let standings ← p.requireStandings
  if m.size ≠ standings.size then
    .error (.configuration (.selectionSize m.size standings.size))
  return standings

/-- **The crowded tournament**: of the two candidates the second wins only if
it is preferred. -/
def crowdedWinner (standings : Array (Standing α)) (i j : Nat) : Nat :=
  if (standings.getD j .lost).isPreferred (standings.getD i .lost) then j else i

/-- **Draws a parent.** There is none to draw from an empty population. -/
def drawParent [SplitMix.Sampler] (m : FitnessMatrix α) (p : Nsga2 α) :
    Except Failure Nat × Nsga2 α :=
  match checkDraw m p with
  | .error e => (.error (.error e), p)
  | .ok standings =>
    if standings.size = 0 then (.error .outOfRange, p)
    else
      let (i, g) := p.generator.below standings.size
      let (j, g) := g.below standings.size
      (.ok (crowdedWinner standings i j), { p with generator := g })

/-- The checks of `nextGeneration`, with the combined matrix. -/
def checkNext (parents children : FitnessMatrix α) (p : Nsga2 α) :
    Except SelectionError (FitnessMatrix α) := do
  let _ ← p.requireStandings
  if parents.size ≠ p.settings.populationSize then
    .error (.configuration (.parentCount parents.size p.settings.populationSize))
  let combined := parents ++ children
  let dim ← combined.objectiveCount
  if dim ≠ p.dim then .error (.dimensionMismatch 0 p.dim dim)
  return combined

/-- The given candidates, the most isolated first; equally isolated ones keep
their order. -/
def mostIsolatedFirst (standings : Array (Standing α)) (candidates : List Nat) : List Nat :=
  stableSort
    (fun i j => totalLE (standings.getD j .lost).crowding (standings.getD i .lost).crowding)
    candidates

/-- **The survivors of a ranked population**: all fronts that fit, then the
most isolated members of the front that does not. -/
def survivors (ranked : RankedFronts) (standings : Array (Standing α)) (target : Nat) : List Nat :=
  let complete := ranked.complete target
  complete ++
    (mostIsolatedFirst standings (ranked.overflowing target)).take (target - complete.length)

/-- **The survivors among parents and children**, as positions in
`parents ++ children`. -/
def nextGeneration (parents children : FitnessMatrix α) (p : Nsga2 α) :
    Except SelectionError (List Nat) × Nsga2 α :=
  match checkNext parents children p with
  | .error e => (.error e, p)
  | .ok combined =>
    let ranked := combined.rankWith p.settings.strategy
    let standings := Standing.table combined ranked
    let kept := survivors ranked standings p.settings.populationSize
    (.ok kept, { p with standings := some (kept.map (standings.getD · .lost)).toArray })

/-- The positions of the members that no other one dominates. -/
def optimal? (p : Nsga2 α) : Option (List Nat) :=
  p.standings.map fun standings =>
    (List.range standings.size).filter fun i => (standings.getD i .lost).rank = 0

end Nsga2

end ParetoSelection
