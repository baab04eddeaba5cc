import ParetoSelection.ConeTree.Build
import ParetoSelection.Nsga3.Niching
import ParetoSelection.Settings
import ParetoSelection.SimplexLattice

/-!
# NSGA-III

Survivors are taken front by front as long as whole fronts fit; the front that
does not is thinned by niching over reference directions. Parents are drawn by
a niched tournament: two candidates that share a direction are compared by rank
and then by their distance to it, two of different directions by a fair coin.

The first population fixes the directions. From then on the estimates of the
run, the niche counts and the associations of the current members are carried
along. If the places cannot be filled the run is over; what the generation has
contributed to the estimates and counts until then stays visible.
-/

namespace ParetoSelection

open Scalar

variable {α : Type} [Scalar α]

namespace Nsga3

/-- **What is known of a run** once it has a first population. -/
structure Run (α : Type) where
  /-- Ideal, nadir and extreme points. -/
  estimates : Estimates α
  /-- The reference directions, of unit length. -/
  directions : ConeTree α
  /-- The niche count of every direction. -/
  nicheCounts : Array Nat
  /-- The association of every member of the population. -/
  members : Array (Association α)
deriving DecidableEq, Repr

/-- The number of objectives of the run. -/
def Run.dim (r : Run α) : Nat :=
  r.estimates.ideal.length

/-- The reference directions of a run, as a tree: the lattice that the settings
ask for, its points scaled to unit length. -/
def directionTree (settings : Settings) (dim : Nat) : Except Failure (ConeTree α) := do
  let directions ← SimplexLattice.directions dim settings.populationSize settings.divisions
  (ConeTree.ofPoints (directions.map normalized)).mapError .error

/-- The number of members that niche counts account for. -/
def nicheTotal (counts : Array Nat) : Nat :=
  counts.foldl (· + ·) 0

/-- Refuses niche counts that do not account for all members. -/
def requireTotal (counts : Array Nat) (members : List Nat) : Except ViolationCause Unit :=
  if nicheTotal counts ≠ members.length then
    .error (.nicheTotal (nicheTotal counts) members.length)
  else .ok ()

/-- **The run of a first population.** -/
def Run.ofPopulation (settings : Settings) (m : FitnessMatrix α) :
    Except Failure (Run α) := do
  let directions ← directionTree settings m.width
  let ranked := m.rankWith settings.strategy
  let estimates := (Estimates.before m).update m
  let members := Association.table estimates directions m ranked.ranks ranked.ordered
  let nicheCounts := Association.nicheCounts members directions.size ranked.ordered
  match requireTotal nicheCounts ranked.ordered with
  | .error cause => .error (.error (.violation cause))
  | .ok () => .ok ⟨estimates, directions, nicheCounts, members⟩

/-- **The run after a generation**, with the survivors among the candidates of
`combined`, and the source of draws that is left. -/
def Run.advance {σ : Type} (draw : Nat → σ → Nat × σ) (settings : Settings)
    (combined : FitnessMatrix α) (r : Run α) (source : σ) :
    Except SelectionError (List Nat) × Run α × σ :=
  let target := settings.populationSize
  let ranked := combined.rankWith settings.strategy
  let complete := ranked.complete target
  let overflowing := ranked.overflowing target
  let estimates := r.estimates.update combined
  let table := Association.table estimates r.directions combined ranked.ranks
    (complete ++ overflowing)
  let counts := Association.nicheCounts table r.directions.size complete
  match requireTotal counts complete with
  | .error cause =>
    (.error (.violation cause), { r with estimates, nicheCounts := counts }, source)
  | .ok () =>
    let assoc := Association.lookUp table
    let pool := Niching.initialPool assoc counts overflowing
    match Niching.fill assoc draw (target - complete.length) ⟨complete, overflowing, pool, counts⟩
        source with
    | (.error cause, s, source) =>
      (.error (.violation cause), { r with estimates, nicheCounts := s.counts }, source)
    | (.ok (), s, source) =>
      (.ok s.survivors,
        { r with estimates, nicheCounts := s.counts, members := (s.survivors.map assoc).toArray },
        source)

end Nsga3

/-- **The NSGA-III policy.** -/
structure Nsga3 (α : Type) where
  /-- The parameters. -/
  settings : Settings
  /-- The generator that tournaments and niching draw from. -/
  generator : SplitMix
  /-- The run, once there is a population. -/
  run : Option (Nsga3.Run α)
deriving DecidableEq, Repr

namespace Nsga3

/-- A policy without a population, and what is left of the shared generator. -/
def create (settings : Settings) (shared : SplitMix) :
    Except SelectionError (Nsga3 α × SplitMix) :=
  (settings.generator shared).map fun (own, shared) => (⟨settings, own, none⟩, shared)

/-- The run, or a refusal if there is no population yet. -/
def requireRun (p : Nsga3 α) : Except SelectionError (Run α) :=
  match p.run with
  | none => .error .notInitialized
  | some r => .ok r

/-- The checks of `start`. -/
def checkStart (m : FitnessMatrix α) (p : Nsga3 α) : Except SelectionError Unit := do
  let dim ← m.objectiveCount
  if dim < 2 then .error (.configuration (.nsga3NeedsTwo dim))
  if m.size ≠ p.settings.populationSize then
    .error (.configuration (.initialSize m.size p.settings.populationSize))

/-- **Takes a first population.** There is no room for all directions if the
settings ask for too many divisions. -/
def start (m : FitnessMatrix α) (p : Nsga3 α) : Except Failure Unit × Nsga3 α :=
  match (do (checkStart m p).mapError Failure.error; Run.ofPopulation p.settings m) with
  | .error f => (.error f, p)
  | .ok r => (.ok (), { p with run := some r })

/-- Called before the first parent of a generation is drawn. -/
def prepare (p : Nsga3 α) : Except SelectionError Unit × Nsga3 α :=
  (p.requireRun.map fun _ => (), p)

/-- The checks of `drawParent`, with the run. -/
def checkDraw (m : FitnessMatrix α) (p : Nsga3 α) : Except SelectionError (Run α) := do
  let r ← p.requireRun
  if m.size ≠ r.members.size then
    .error (.configuration (.selectionSize m.size r.members.size))
  return r

/-- **The niched tournament** of two candidates. A coin is only tossed if they
have different directions. -/
def nichedWinner (members : Array (Association α)) (i j : Nat) (g : SplitMix) : Nat × SplitMix :=
  let a := Association.lookUp members i
  let b := Association.lookUp members j
  if a.direction = b.direction then
    let preferred : Bool := if a.rank ≠ b.rank then a.rank < b.rank else a.distance < b.distance
    (if preferred then i else j, g)
  else
    let (heads, g) := g.coin
    (if heads then i else j, g)

/-- **Draws a parent.** There is none to draw from an empty population. -/
def drawParent [SplitMix.Sampler] (m : FitnessMatrix α) (p : Nsga3 α) :
    Except Failure Nat × Nsga3 α :=
  match checkDraw m p with
  | .error e => (.error (.error e), p)
  | .ok r =>
    if r.members.size = 0 then (.error .outOfRange, p)
    else
      let (i, g) := p.generator.below r.members.size
      let (j, g) := g.below r.members.size
      let (winner, g) := nichedWinner r.members i j g
      (.ok winner, { p with generator := g })

/-- The checks of `nextGeneration`, with the run and the combined matrix. -/
def checkNext (parents children : FitnessMatrix α) (p : Nsga3 α) :
    Except SelectionError (Run α × FitnessMatrix α) := do
  let r ← p.requireRun
  if parents.size ≠ p.settings.populationSize then
    .error (.configuration (.parentCount parents.size p.settings.populationSize))
  let combined := parents ++ children
  let dim ← combined.objectiveCount
  if dim ≠ r.dim then .error (.dimensionMismatch 0 r.dim dim)
  return (r, combined)

/-- **The survivors among parents and children**, as positions in
`parents ++ children`. -/
def nextGeneration [SplitMix.Sampler] (parents children : FitnessMatrix α) (p : Nsga3 α) :
    Except SelectionError (List Nat) × Nsga3 α :=
  match checkNext parents children p with
  | .error e => (.error e, p)
  | .ok (r, combined) =>
    let (survivors, r, g) := r.advance SplitMix.below p.settings combined p.generator
    (survivors, { p with run := some r, generator := g })

/-- The positions of the members that no other one dominates. -/
def optimal? (p : Nsga3 α) : Option (List Nat) :=
  p.run.map fun r =>
    (List.range r.members.size).filter fun i => (Association.lookUp r.members i).rank = 0

end Nsga3

end ParetoSelection
