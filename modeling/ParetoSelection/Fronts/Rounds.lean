import ParetoSelection.Access

/-!
# Peeling in rounds

Peeling keeps a rank and a mark for every candidate, besides the fronts found so far and the
candidates that remain. In each round a finder is asked for the front of those who remain.
The members of the front get the number of fronts found before as their rank, and a mark,
and all marked ones are taken out of those who remain.

A round takes place as long as somebody remains, whatever the round before has achieved. So
nothing in the rounds themselves says that there is a last one: where a finder finds nobody,
the next round is the same again, and no run leads from there to an end (`Peeling.Runs`). Such
rounds add one front after the other to a list for which there is no room in the end, and this
is what `Peeling.run` reports.
-/

namespace ParetoSelection

/-- **Peeling between two rounds.** -/
structure Peeling where
  /-- Who has no rank yet. -/
  remaining : List Nat
  /-- The ranks, zero for those who remain. -/
  ranks : Array Nat
  /-- Who has a rank. -/
  placed : Array Bool
  /-- The fronts so far. -/
  fronts : List (List Nat)
deriving DecidableEq, Repr

namespace Peeling

/-- Everybody remains. -/
def start (size : Nat) : Peeling :=
  ⟨List.range size, Array.replicate size 0, Array.replicate size false, []⟩

/-- Those of some candidates who are not marked. -/
def unplaced (placed : Array Bool) : List Nat → Except Failure (List Nat)
  | [] => .ok []
  | i :: candidates => do
    let isPlaced ← readAt placed i
    let rest ← unplaced placed candidates
    return if isPlaced then rest else i :: rest

/-- **One round.** -/
def round (finder : List Nat → Except Failure (List Nat)) (s : Peeling) :
    Except Failure Peeling := do
  let front ← finder s.remaining
  let ranks ← writeAll s.ranks s.fronts.length front
  let placed ← writeAll s.placed true front
  let remaining ← unplaced placed s.remaining
  return ⟨remaining, ranks, placed, s.fronts ++ [front]⟩

/-- **Rounds as long as somebody remains**, from a state to the one where nobody does. There
is no run where a round fails, or where there is no last one. -/
inductive Runs (finder : List Nat → Except Failure (List Nat)) : Peeling → Peeling → Prop
  /-- Nobody remains. -/
  | done {s : Peeling} (hnone : s.remaining = []) : Runs finder s s
  /-- Somebody remains. -/
  | next {s s' t : Peeling} (hsome : s.remaining ≠ []) (hround : s.round finder = .ok s')
      (hrun : Runs finder s' t) : Runs finder s t

/-- **Where the rounds lead to** from a state. A round that takes nobody out is the first of
rounds without end. -/
def run (finder : List Nat → Except Failure (List Nat)) (s : Peeling) : Except Failure Peeling :=
  if s.remaining = [] then .ok s
  else
    match s.round finder with
    | .error e => .error e
    | .ok s' =>
      if s'.remaining.length < s.remaining.length then run finder s' else .error .tooLarge
termination_by s.remaining.length

end Peeling

end ParetoSelection
