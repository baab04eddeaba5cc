import ParetoSelection.Failure
import ParetoSelection.Nsga3.Association
import ParetoSelection.StableSort

/-!
# Filling the population direction by direction

The front that does not fit is thinned so that the survivors spread over the
reference directions. As long as a place is free, one of the directions with
the fewest members is drawn, and its closest remaining candidate moves in.

Only directions with a remaining candidate take part. They are kept in a *pool*
in ascending order of their niche counts, so the directions to draw from are a
leading part of it. A direction that has lost its last candidate leaves the
pool; any other gets its count raised by one and moves behind all directions
that it no longer precedes, by changing places with the last of them.

The draws come from any source: `fill` takes a function that draws an index
below a bound from a state. The policy runs it with its generator; nothing
about the result but the choice among equals depends on it.

Positions that are not there are looked up as zero. `Stores.fill` works on
arrays, and fails at such a position.
-/

namespace ParetoSelection

open Scalar

variable {α : Type} [Scalar α]

/-- **The population while it is filled.** -/
structure Niching where
  /-- The survivors so far. -/
  survivors : List Nat
  /-- The candidates still to choose from. -/
  remaining : List Nat
  /-- The directions with a remaining candidate, those with few members first. -/
  pool : List Nat
  /-- The niche counts of all directions. -/
  counts : Array Nat
deriving DecidableEq, Repr

/-- A list with the elements at two positions exchanged. -/
def exchange (xs : List Nat) (i j : Nat) : List Nat :=
  (xs.set i (xs.getD j 0)).set j (xs.getD i 0)

/-- A list without the element at a position, which the last one fills. -/
def fillGap (xs : List Nat) (i : Nat) : List Nat :=
  (xs.set i (xs.getLast?.getD 0)).dropLast

namespace Niching

/-- The niche count of a direction. -/
def count (counts : Array Nat) (d : Nat) : Nat :=
  counts.getD d 0

variable (assoc : Nat → Association α)

/-- **The pool to start with**: every direction of a remaining candidate, in
ascending order of the niche counts, equal ones in the order of the
directions. -/
def initialPool (counts : Array Nat) (remaining : List Nat) : List Nat :=
  stableSort (fun d e => count counts d ≤ count counts e)
    ((List.range counts.size).filter fun d => remaining.any fun i => (assoc i).direction = d)

/-- The places of the remaining candidates of a direction, in order. -/
def placesOf (remaining : List Nat) (d : Nat) : List Nat :=
  (List.range remaining.length).filter fun k => (assoc (remaining.getD k 0)).direction = d

/-- The first of some places, counting `first` among them, whose candidate is
at the lowest distance. -/
def closestPlace (remaining : List Nat) (first : Nat) (rest : List Nat) : Nat :=
  rest.foldl
    (fun best k =>
      if (assoc (remaining.getD k 0)).distance < (assoc (remaining.getD best 0)).distance
      then k else best)
    first

/-- How many directions at the front of the pool have the lowest niche count. -/
def minimalCount (s : Niching) : Nat :=
  (s.pool.takeWhile fun d => count s.counts d = count s.counts (s.pool.headD 0)).length

/-- The pool after the count of the direction at `place` has been raised: it
goes behind the directions that follow with a lower count. -/
def reorderPool (counts : Array Nat) (pool : List Nat) (place : Nat) : List Nat :=
  let raised := count counts (pool.getD place 0)
  let passed := (pool.drop (place + 1)).takeWhile fun d => count counts d < raised
  exchange pool place (place + passed.length)

/-- **One candidate moves in**, of the direction at the given place of the
pool; none does if that direction has no remaining candidate. -/
def moveIn (s : Niching) (place : Nat) : Option Niching :=
  let d := s.pool.getD place 0
  match placesOf assoc s.remaining d with
  | [] => none
  | first :: rest =>
    let k := closestPlace assoc s.remaining first rest
    let survivors := s.survivors ++ [s.remaining.getD k 0]
    let remaining := fillGap s.remaining k
    if rest.isEmpty then
      some { s with survivors, remaining, pool := s.pool.eraseIdx place }
    else
      let counts := s.counts.modify d (· + 1)
      some ⟨survivors, remaining, reorderPool counts s.pool place, counts⟩

variable {σ : Type} (draw : Nat → σ → Nat × σ)

/-- **Fills the given number of free places**, one draw per place. It stops
early, with what has been done until then, if no direction is left or the one
that is drawn has no candidate. -/
def fill : (places : Nat) → (s : Niching) → (source : σ) →
    Except ViolationCause Unit × Niching × σ
  | 0, s, source => (.ok (), s, source)
  | places + 1, s, source =>
    if s.pool.isEmpty then
      (.error (.poolExhausted s.survivors.length (s.survivors.length + places + 1)), s, source)
    else
      let (place, source) := draw s.minimalCount source
      match s.moveIn assoc place with
      | none => (.error (.emptyDirection (s.pool.getD place 0)), s, source)
      | some s => fill places s source

end Niching

end ParetoSelection
