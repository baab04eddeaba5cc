import Mathlib.Data.List.Defs
import ParetoSelection.Access
import ParetoSelection.Fronts.Strategy
import ParetoSelection.Nsga3.Policy

/-!
# NSGA-III on its arrays

Associations, niche counts, survivors, remaining candidates and the pool of directions are
arrays that are changed entry by entry. A generation reads and writes them at positions that
it has worked out before, and it ends in a failure where such a position is not there.

The steps are those of `Run.advance`, which looks up a default value where there is nothing to
be read and says what comes out of each step: which direction a candidate has, how many
members a direction has, which directions are in the pool and in which order. Here the niche
counts are set to zero and counted up member by member, the pool is made from the directions
of all remaining candidates by sorting them, dropping repetitions and sorting again, and the
closest candidate of a direction is found in one pass over those who remain.
-/

namespace ParetoSelection

variable {α : Type} [Scalar α]

/-! ## Associations -/

namespace Association

/-- The closest direction of a candidate, and its squared distance to it. -/
def linkOf (e : Estimates α) (directions : ConeTree α) (m : FitnessMatrix α) (i : Nat) :
    Except Failure (Nat × α) := do
  let normalized := e.normalize (← readAt m i)
  let hit := directions.find normalized
  return (hit.index, lineDistanceSq (← readAt directions.points hit.index) normalized)

omit [Scalar α] in
/-- Enters a direction and a distance for a candidate. -/
def enter (table : Array (Association α)) (entry : Nat × (Nat × α)) :
    Except Failure (Array (Association α)) := do
  let a ← readAt table entry.1
  writeAt table entry.1 { a with direction := entry.2.1, distance := entry.2.2 }

/-- **Associates some candidates.** All of them are looked up before any of them is entered. -/
def associate (e : Estimates α) (directions : ConeTree α) (m : FitnessMatrix α)
    (chosen : List Nat) (table : Array (Association α)) :
    Except Failure (Array (Association α)) := do
  let links ← chosen.mapM (linkOf e directions m)
  (chosen.zip links).foldlM enter table

/-- Counts a member of the population for its direction. -/
def countIn (table : Array (Association α)) (counts : Array Nat) (i : Nat) :
    Except Failure (Array Nat) := do
  let a ← readAt table i
  writeAt counts a.direction ((← readAt counts a.direction) + 1)

/-- **Counts some members from zero.** -/
def recount (table : Array (Association α)) (counts : Array Nat) (members : List Nat) :
    Except Failure (Array Nat) :=
  members.foldlM (countIn table) (counts.map fun _ => 0)

end Association

/-! ## Niching -/

namespace Niching

/-- **The pool to start with**: the directions of the remaining candidates in ascending order
and without repetitions, sorted again by their niche counts. -/
def checkedPool (table : Array (Association α)) (counts : Array Nat) (remaining : List Nat) :
    Except Failure (List Nat) := do
  let linked ← remaining.mapM fun i => do return (← readAt table i).direction
  let distinct := (stableSort (fun d e => d ≤ e) linked).destutter (· ≠ ·)
  let keyed ← distinct.mapM fun d => do return (← readAt counts d, d)
  return (stableSort (fun a b => a.1 ≤ b.1) keyed).map Prod.snd

/-- **The population while it is filled**, in arrays. -/
structure Stores where
  /-- The survivors so far. -/
  survivors : Array Nat
  /-- The candidates still to choose from. -/
  remaining : Array Nat
  /-- The directions with a remaining candidate, those with few members first. -/
  pool : Array Nat
  /-- The niche counts of all directions. -/
  counts : Array Nat
deriving DecidableEq, Repr

namespace Stores

/-- What is in the arrays. -/
def contents (s : Stores) : Niching :=
  ⟨s.survivors.toList, s.remaining.toList, s.pool.toList, s.counts⟩

/-- How many directions at the front of the pool have as few members as the first. -/
def minimalCount (s : Stores) : Except Failure Nat := do
  let lowest ← readAt s.counts (← readAt s.pool 0)
  leading (fun d => do return (← readAt s.counts d) = lowest) s.pool.toList

variable (table : Array (Association α))

/-- One candidate in the search for the closest of a direction: how many have been met, and
the place of the closest of them. -/
def visit (remaining : Array Nat) (d : Nat) (met : Nat × Option Nat) (k : Nat) :
    Except Failure (Nat × Option Nat) := do
  let a ← readAt table (← readAt remaining k)
  if a.direction ≠ d then return met
  match met.2 with
  | none => return (met.1 + 1, some k)
  | some best => do
    let b ← readAt table (← readAt remaining best)
    return (met.1 + 1, some (if a.distance < b.distance then k else best))

/-- **How many candidates of a direction remain, and the place of the closest.** -/
def survey (remaining : Array Nat) (d : Nat) : Except Failure (Nat × Option Nat) :=
  (List.range' 0 remaining.size).foldlM (visit table remaining d) (0, none)

/-- The pool after the count of the direction at `place` has been raised. -/
def moveBack (counts pool : Array Nat) (place raised : Nat) : Except Failure (Array Nat) := do
  let passed ← leading (fun d => do return (← readAt counts d) < raised)
    (pool.toList.drop (place + 1))
  exchangeAt pool place (place + passed)

/-- **One candidate moves in**, of the direction at a place of the pool; none does if that
direction has no remaining candidate. -/
def moveIn (s : Stores) (place : Nat) : Except Failure (Option Stores) := do
  let d ← readAt s.pool place
  let (met, closest) ← survey table s.remaining d
  match closest with
  | none => return none
  | some k => do
    let survivors := s.survivors.push (← readAt s.remaining k)
    let remaining ← fillGapAt s.remaining k
    if met = 1 then
      return some { s with survivors, remaining, pool := ← removeAt s.pool place }
    else
      let raised := (← readAt s.counts d) + 1
      let counts ← writeAt s.counts d raised
      return some ⟨survivors, remaining, ← moveBack counts s.pool place raised, counts⟩

/-- **Fills the given number of free places**, one draw per place. There is no draw from an
empty range. -/
def fill {σ : Type} (draw : Nat → σ → Nat × σ) : (places : Nat) → (s : Stores) → (source : σ) →
    Except Failure (Except ViolationCause Unit × Stores × σ)
  | 0, s, source => return (.ok (), s, source)
  | places + 1, s, source =>
    if s.pool.isEmpty then
      return (.error (.poolExhausted s.survivors.size (s.survivors.size + places + 1)), s, source)
    else do
      let n ← s.minimalCount
      if n = 0 then throw .outOfRange
      let (place, source) := draw n source
      match ← s.moveIn table place with
      | none => return (.error (.emptyDirection (← readAt s.pool place)), s, source)
      | some s => fill draw places s source

end Stores

end Niching

/-! ## Runs -/

namespace Nsga3

/-- **The run of a first population** with these directions. -/
def Run.checkedOpening (settings : Settings) (m : FitnessMatrix α) (directions : ConeTree α) :
    Except Failure (Run α) := do
  let ranked ← m.checkedRank settings.strategy
  let estimates := (Estimates.before m).update m
  let table := (ranked.ranks.map Association.unassociated).toArray
  let members ← Association.associate estimates directions m ranked.ordered table
  let zeros := Array.replicate directions.size 0
  let nicheCounts ← Association.recount members zeros ranked.ordered
  match requireTotal nicheCounts ranked.ordered with
  | .error cause => .error (.error (.violation cause))
  | .ok () => .ok ⟨estimates, directions, nicheCounts, members⟩

/-- **The run after a generation**, with the survivors among the candidates of `combined`, and
the source of draws that is left. -/
def Run.checkedAdvance {σ : Type} (draw : Nat → σ → Nat × σ) (settings : Settings)
    (combined : FitnessMatrix α) (r : Run α) (source : σ) :
    Except Failure (Except SelectionError (List Nat) × Run α × σ) := do
  let target := settings.populationSize
  let ranked ← combined.checkedRank settings.strategy
  let cut := ranked.criticalFront target
  let estimates := r.estimates.update combined
  let chosen ← sliceOf ranked.ordered 0 cut.last
  let table := (ranked.ranks.map Association.unassociated).toArray
  let table ← Association.associate estimates r.directions combined chosen table
  let complete ← sliceOf ranked.ordered 0 cut.first
  let counts ← Association.recount table r.nicheCounts complete
  match requireTotal counts complete with
  | .error cause =>
    return (.error (.violation cause), { r with estimates, nicheCounts := counts }, source)
  | .ok () => do
    let overflowing ← sliceOf ranked.ordered cut.first cut.last
    let pool ← Niching.checkedPool table counts overflowing
    let (outcome, s, source) ← Niching.Stores.fill table draw (target - complete.length)
      ⟨complete.toArray, overflowing.toArray, pool.toArray, counts⟩ source
    match outcome with
    | .error cause =>
      return (.error (.violation cause), { r with estimates, nicheCounts := s.counts }, source)
    | .ok () => do
      let members ← s.survivors.toList.mapM (readAt table)
      return (.ok s.survivors.toList,
        { r with estimates, nicheCounts := s.counts, members := members.toArray }, source)

/-- **The survivors among parents and children**, as positions in `parents ++ children`. -/
def checkedGeneration [SplitMix.Sampler] (parents children : FitnessMatrix α) (p : Nsga3 α) :
    Except Failure (Except SelectionError (List Nat) × Nsga3 α) :=
  match checkNext parents children p with
  | .error e => return (.error e, p)
  | .ok (r, combined) => do
    let (survivors, r, g) ← r.checkedAdvance SplitMix.below p.settings combined p.generator
    return (survivors, { p with run := some r, generator := g })

/-- **The niched tournament** of two members. -/
def checkedWinner (members : Array (Association α)) (i j : Nat) (g : SplitMix) :
    Except Failure (Nat × SplitMix) := do
  let a ← readAt members i
  let b ← readAt members j
  if a.direction = b.direction then
    let preferred : Bool := if a.rank ≠ b.rank then a.rank < b.rank else a.distance < b.distance
    return (if preferred then i else j, g)
  else
    let (heads, g) := g.coin
    return (if heads then i else j, g)

end Nsga3

end ParetoSelection
