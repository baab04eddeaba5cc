import ParetoSelection.Nsga2
import ParetoSelection.Nsga3.Policy
import ParetoSelection.SingleObjective

/-!
# A policy for a run

One of the three policies, chosen for a run by the number of objectives. What
it returns is checked at this boundary: a parent has to be a member of the
population, and the survivors have to be as many as the population has
members, each of them a parent or child, and none twice. An answer that fails
the check is a violation; what the policy did to come to it is not undone.
-/

namespace ParetoSelection

variable {α : Type} [Scalar α]

/-- **A selection policy.** -/
inductive Policy (α : Type) where
  /-- Tournament and keep-best selection by one objective. -/
  | singleObjective (p : SingleObjective)
  /-- Selection by rank and crowding distance. -/
  | nsga2 (p : Nsga2 α)
  /-- Selection by rank and reference directions. -/
  | nsga3 (p : Nsga3 α)
deriving DecidableEq, Repr

/-- The kinds of policies. -/
inductive Policy.Kind where
  /-- Selection by one objective. -/
  | singleObjective
  /-- Selection by rank and crowding distance. -/
  | nsga2
  /-- Selection by rank and reference directions. -/
  | nsga3
deriving DecidableEq, Repr

namespace Policy

/-- **The policy for a number of objectives**: NSGA-III from two on. -/
def ofObjectiveCount (objectives : Nat) (settings : Settings) (shared : SplitMix) :
    Except SelectionError (Policy α × SplitMix) :=
  match objectives with
  | 0 => .error (.configuration .zeroObjectiveRun)
  | 1 => (SingleObjective.create settings shared).map fun (p, g) => (.singleObjective p, g)
  | _ => (Nsga3.create settings shared).map fun (p, g) => (.nsga3 p, g)

/-- An NSGA-II policy. -/
def ofNsga2 (settings : Settings) (shared : SplitMix) :
    Except SelectionError (Policy α × SplitMix) :=
  (Nsga2.create settings shared).map fun (p, g) => (.nsga2 p, g)

/-- Which policy it is. -/
def kind : Policy α → Policy.Kind
  | singleObjective _ => .singleObjective
  | nsga2 _ => .nsga2
  | nsga3 _ => .nsga3

/-- The parameters of the policy. -/
def settings : Policy α → Settings
  | singleObjective p => p.settings
  | nsga2 p => p.settings
  | nsga3 p => p.settings

/-- The number of survivors of a generation. -/
def populationSize (p : Policy α) : Nat :=
  p.settings.populationSize

/-- **Takes a first population.** -/
def start (m : FitnessMatrix α) : Policy α → Except Failure Unit × Policy α
  | singleObjective p => let (r, p) := p.start m; (r.mapError .error, singleObjective p)
  | nsga2 p => let (r, p) := p.start m; (r.mapError .error, nsga2 p)
  | nsga3 p => let (r, p) := p.start m; (r, nsga3 p)

/-- Called before the first parent of a generation is drawn. -/
def prepare : Policy α → Except SelectionError Unit × Policy α
  | singleObjective p => let (r, p) := p.prepare; (r, singleObjective p)
  | nsga2 p => let (r, p) := p.prepare; (r, nsga2 p)
  | nsga3 p => let (r, p) := p.prepare; (r, nsga3 p)

/-- Draws a parent, unchecked. -/
def drawUnchecked [SplitMix.Sampler] (m : FitnessMatrix α) :
    Policy α → Except Failure Nat × Policy α
  | singleObjective p => let (r, p) := p.drawParent m; (r, singleObjective p)
  | nsga2 p => let (r, p) := p.drawParent m; (r, nsga2 p)
  | nsga3 p => let (r, p) := p.drawParent m; (r, nsga3 p)

/-- The survivors of a generation, unchecked. -/
def nextUnchecked [SplitMix.Sampler] (parents children : FitnessMatrix α) :
    Policy α → Except SelectionError (List Nat) × Policy α
  | singleObjective p => let (r, p) := p.nextGeneration parents children; (r, singleObjective p)
  | nsga2 p => let (r, p) := p.nextGeneration parents children; (r, nsga2 p)
  | nsga3 p => let (r, p) := p.nextGeneration parents children; (r, nsga3 p)

/-- Accepts a parent that is a member of the population. -/
def checkSelected (population index : Nat) : Except Failure Nat :=
  if population ≤ index then
    .error (.error (.violation (.selectedOutside index population)))
  else .ok index

/-- Looks through survivors for one outside the combined population or one that
was seen before. -/
def findFault (combined : Nat) : (seen survivors : List Nat) → Option ViolationCause
  | _, [] => none
  | seen, i :: rest =>
    if combined ≤ i then some (.survivorOutside i combined)
    else if seen.contains i then some (.survivorRepeated i)
    else findFault combined (i :: seen) rest

/-- **Accepts survivors** that are as many as the population has members, all
among the combined candidates, and pairwise different. -/
def checkSurvivors (population combined : Nat) (survivors : List Nat) :
    Except SelectionError (List Nat) :=
  if survivors.length ≠ population then
    .error (.violation (.survivorCount survivors.length population))
  else
    match findFault combined [] survivors with
    | some cause => .error (.violation cause)
    | none => .ok survivors

/-- **Draws a parent.** -/
def drawParent [SplitMix.Sampler] (m : FitnessMatrix α) (p : Policy α) :
    Except Failure Nat × Policy α :=
  let (r, p) := p.drawUnchecked m
  (r.bind (checkSelected p.populationSize), p)

/-- **The survivors among parents and children**, as positions in
`parents ++ children`. -/
def nextGeneration [SplitMix.Sampler] (parents children : FitnessMatrix α) (p : Policy α) :
    Except SelectionError (List Nat) × Policy α :=
  let (r, p) := p.nextUnchecked parents children
  (r.bind (checkSurvivors p.populationSize (parents.size + children.size)), p)

/-- The positions of the members that no other one dominates, where the policy
knows. -/
def optimal? : Policy α → Option (List Nat)
  | singleObjective _ => none
  | nsga2 p => p.optimal?
  | nsga3 p => p.optimal?

end Policy

end ParetoSelection
