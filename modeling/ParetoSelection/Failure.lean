/-!
# What can go wrong

A request to a selection policy is refused for a cause, and the cause is a
value: which parameter is out of range, which row has the wrong width. Two
classes are kept apart. *Refusals* are the caller's doing and are found
before anything changes; *violations* of the library's own bookkeeping are
fatal, because repeating the request cannot mend them.

Each cause has one wording, in `ConfigurationCause.message` and
`ViolationCause.message`, and `SelectionError.message` puts the class in
front.

A `Failure` is a refusal or violation that is reported, or something about
which there is nothing to report: an access outside the data – an index no row
has, a draw from an empty range, a counter below zero – or a collection that no
memory has room for, because of the length that is asked for or because it
grows without end.
-/

namespace ParetoSelection

/-- Why parameters or inputs do not suit a policy. -/
inductive ConfigurationCause where
  /-- There is no fitness row at all. -/
  | emptyFitness
  /-- The first fitness row has no objective. -/
  | noObjectives
  /-- A population of fewer than two members. -/
  | populationTooSmall
  /-- A tournament without participants. -/
  | emptyTournament
  /-- Settings that ask for a lattice with no steps. -/
  | zeroDivisionSetting
  /-- A run over no objectives. -/
  | zeroObjectiveRun
  /-- Single-objective selection over another number of objectives. -/
  | notSingleObjective (found : Nat)
  /-- NSGA-II over a single objective. -/
  | nsga2NeedsTwo (found : Nat)
  /-- NSGA-III over a single objective. -/
  | nsga3NeedsTwo (found : Nat)
  /-- The first population does not have the size of the settings. -/
  | initialSize (found expected : Nat)
  /-- A parent is asked for from a population of another size. -/
  | selectionSize (found expected : Nat)
  /-- The parents of a generation are not the whole population. -/
  | parentCount (found expected : Nat)
  /-- A lattice of directions over fewer than two objectives. -/
  | directionsNeedTwo (found : Nat)
  /-- A lattice of directions with no steps. -/
  | zeroDivisions
  /-- A cause found by a caller's own checks. -/
  | other (text : String)
deriving DecidableEq, Repr

/-- The wording of a cause. -/
def ConfigurationCause.message : ConfigurationCause → String
  | emptyFitness => "fitness matrix must not be empty"
  | noObjectives => "fitness vectors must have at least one objective"
  | populationTooSmall => "population_size must be at least 2"
  | emptyTournament => "tournament_size must be at least 1"
  | zeroDivisionSetting => "n_divisions must be positive or None"
  | zeroObjectiveRun => "number of objectives must be at least 1"
  | notSingleObjective found => s!"single-objective selection got {found} objectives"
  | nsga2NeedsTwo found => s!"NSGA-II needs at least 2 objectives, got {found}"
  | nsga3NeedsTwo found => s!"NSGA-III needs at least 2 objectives, got {found}"
  | initialSize found expected =>
      s!"initial population has {found} candidates, expected {expected}"
  | selectionSize found expected =>
      s!"selecting from {found} candidates, population has {expected}"
  | parentCount found expected => s!"got {found} parents, expected {expected}"
  | directionsNeedTwo found =>
      s!"reference directions need at least 2 objectives, got {found}"
  | zeroDivisions => "division count must be > 0"
  | other text => text

/-- Which part of the library's own bookkeeping does not hold. -/
inductive ViolationCause where
  /-- Recounting the niches missed some of the members. -/
  | nicheTotal (total members : Nat)
  /-- No direction is left while the population is not yet full. -/
  | poolExhausted (survivors expected : Nat)
  /-- A direction of the pool has no candidate left. -/
  | emptyDirection (direction : Nat)
  /-- A selected parent does not exist. -/
  | selectedOutside (index population : Nat)
  /-- The number of survivors is not the population size. -/
  | survivorCount (found expected : Nat)
  /-- A survivor is neither a parent nor a child. -/
  | survivorOutside (index combined : Nat)
  /-- A survivor is listed twice. -/
  | survivorRepeated (index : Nat)
  /-- A violation found by a caller's own checks. -/
  | other (text : String)
deriving DecidableEq, Repr

/-- The wording of a violation. -/
def ViolationCause.message : ViolationCause → String
  | nicheTotal total members =>
      s!"niche counts sum to {total} after recounting {members} candidates"
  | poolExhausted survivors expected =>
      s!"reference pool exhausted with {survivors} of {expected} survivors"
  | emptyDirection direction =>
      s!"reference direction {direction} has no remaining candidate"
  | selectedOutside index population =>
      s!"selected index {index} is outside the population of {population}"
  | survivorCount found expected => s!"{found} survivors returned, expected {expected}"
  | survivorOutside index combined =>
      s!"survivor index {index} is outside the combined population of {combined}"
  | survivorRepeated index => s!"survivor index {index} returned twice"
  | other text => text

/-- **An error of the selection step.** -/
inductive SelectionError where
  /-- Parameters or inputs that do not suit the policy. -/
  | configuration (cause : ConfigurationCause)
  /-- The row at `index` has `found` objectives where `expected` are asked for. -/
  | dimensionMismatch (index expected found : Nat)
  /-- The policy has not been given a first population. -/
  | notInitialized
  /-- The library's own bookkeeping does not hold. -/
  | violation (cause : ViolationCause)
deriving DecidableEq, Repr

namespace SelectionError

/-- **The text of an error.** -/
def message : SelectionError → String
  | configuration cause => "configuration error: " ++ cause.message
  | dimensionMismatch index expected found =>
      s!"fitness vector {index} has {found} objectives, expected {expected}"
  | notInitialized => "selection policy used before initialize()"
  | violation cause => "internal invariant violated: " ++ cause.message

/-- Whether the run has to end. -/
def isFatal : SelectionError → Bool
  | violation _ => true
  | _ => false

end SelectionError

/-- The most bytes that a collection can take: half of all 64-bit addresses. -/
def maxBytes : Nat := 0x7fffffffffffffff

/-- **Why a call gives no answer.** -/
inductive Failure where
  /-- An error that is reported. -/
  | error (e : SelectionError)
  /-- An access outside the data, a draw from an empty range, or a counter below zero. -/
  | outOfRange
  /-- A collection of more elements than memory can address, or of elements without end. -/
  | tooLarge
deriving DecidableEq, Repr

end ParetoSelection
