import ParetoSelection.Access
import ParetoSelection.Dominance
import ParetoSelection.Fitness

/-!
# Ranking in two loops

Counting dominators takes two loops. The first one compares every two candidates once, the
earlier with the later. Who is found to dominate gets the other on the list of those it has
beaten, and the counter of the other goes up by one. A candidate that has been compared with
all later ones has by then been compared with all earlier ones too, so its counter is
complete, and it joins the first front there and then if the counter is zero (`Tally`).

The second loop takes the last front away, again and again. The counter of everybody whom a
member of it has beaten goes down by one. Who reaches zero gets the number of fronts so far
as their rank and joins the next front, and the loop ends where nobody does (`Countdown`).

All four stores are arrays with a place for every candidate. An access outside of them is a
failure, and so is lowering a counter that is zero.
-/

namespace ParetoSelection

variable {α : Type} [Scalar α]

/-! ## Every two candidates once -/

/-- **What comparing pairs has brought out so far.** -/
structure Tally where
  /-- For each candidate, how many have been found to dominate it. -/
  counts : Array Nat
  /-- For each candidate, whom it has been found to dominate. -/
  beaten : Array (List Nat)
  /-- The first front as far as it is known. -/
  first : List Nat
deriving DecidableEq, Repr

namespace Tally

/-- Nobody has been compared. -/
def start (size : Nat) : Tally :=
  ⟨Array.replicate size 0, Array.replicate size [], []⟩

/-- One candidate has been found to dominate another. -/
def record (t : Tally) (winner loser : Nat) : Except Failure Tally := do
  let others ← readAt t.beaten winner
  let beaten ← writeAt t.beaten winner (others ++ [loser])
  let count ← readAt t.counts loser
  let counts ← writeAt t.counts loser (count + 1)
  return { t with counts, beaten }

/-- **One comparison** of two candidates. -/
def meet (m : FitnessMatrix α) (i : Nat) (t : Tally) (j : Nat) : Except Failure Tally := do
  let a ← readAt m i
  let b ← readAt m j
  match Dominance.compare a b with
  | .left => t.record i j
  | .right => t.record j i
  | .neither => return t

/-- The candidate joins the first front if nobody has been found to dominate it. -/
def enroll (t : Tally) (i : Nat) : Except Failure Tally := do
  let count ← readAt t.counts i
  return if count = 0 then { t with first := t.first ++ [i] } else t

/-- **One candidate and all later ones.** -/
def meetLater (m : FitnessMatrix α) (t : Tally) (i : Nat) : Except Failure Tally := do
  let t ← (List.range' (i + 1) (m.size - (i + 1))).foldlM (meet m i) t
  t.enroll i

/-- **Every two candidates of a matrix.** -/
def ofMatrix (m : FitnessMatrix α) : Except Failure Tally :=
  (List.range' 0 m.size).foldlM (meetLater m) (start m.size)

end Tally

/-! ## One front after the other -/

/-- **The state while a front is taken away.** -/
structure Departure where
  /-- For each candidate, how many of its dominators are not yet in a front. -/
  counts : Array Nat
  /-- The ranks so far, zero for those who have none. -/
  ranks : Array Nat
  /-- Who has reached zero, in that order. -/
  next : List Nat
deriving DecidableEq, Repr

namespace Departure

/-- A dominator of a candidate has gone. The candidate gets the given rank if it was the
last one. -/
def lower (rank : Nat) (s : Departure) (j : Nat) : Except Failure Departure := do
  match ← readAt s.counts j with
  | 0 => .error .outOfRange
  | left + 1 =>
    let counts ← writeAt s.counts j left
    if left = 0 then
      let ranks ← writeAt s.ranks j rank
      return ⟨counts, ranks, s.next ++ [j]⟩
    else return ⟨counts, s.ranks, s.next⟩

/-- A candidate goes. -/
def dismiss (beaten : Array (List Nat)) (rank : Nat) (s : Departure) (i : Nat) :
    Except Failure Departure := do
  let losers ← readAt beaten i
  losers.foldlM (lower rank) s

end Departure

/-- **Ranking between two rounds.** -/
structure Countdown where
  /-- For each candidate, how many of its dominators are not in a front before the last. -/
  counts : Array Nat
  /-- The ranks so far, zero for those who have none. -/
  ranks : Array Nat
  /-- The fronts so far. -/
  fronts : List (List Nat)
deriving DecidableEq, Repr

namespace Countdown

/-- The first front is known. -/
def start (t : Tally) : Countdown :=
  ⟨t.counts, Array.replicate t.counts.size 0, [t.first]⟩

/-- The last front is taken away. -/
def dismissLast (beaten : Array (List Nat)) (s : Countdown) : Except Failure Departure :=
  (s.fronts.getLastD []).foldlM (Departure.dismiss beaten s.fronts.length)
    ⟨s.counts, s.ranks, []⟩

/-- **Rounds as long as there is a next front**, from a state to the one where there is none.
There is no run where a counter would be lowered below zero. -/
inductive Runs (beaten : Array (List Nat)) : Countdown → Countdown → Prop
  /-- Nobody reaches zero. -/
  | done {s : Countdown} {d : Departure} (hround : s.dismissLast beaten = .ok d)
      (hnone : d.next = []) : Runs beaten s ⟨d.counts, d.ranks, s.fronts⟩
  /-- Those who reach zero are the next front. -/
  | next {s t : Countdown} {d : Departure} (hround : s.dismissLast beaten = .ok d)
      (hsome : d.next ≠ []) (hrun : Runs beaten ⟨d.counts, d.ranks, s.fronts ++ [d.next]⟩ t) :
      Runs beaten s t

end Countdown

/-- **The ranks and fronts that the two loops give to a matrix.** No loop is entered where
there are no two candidates to compare. -/
inductive FitnessMatrix.CountsOut (m : FitnessMatrix α) :
    (ranks : Array Nat) → (fronts : List (List Nat)) → Prop
  /-- There is nobody to rank. -/
  | nobody (hsize : m.size = 0) : m.CountsOut #[] []
  /-- There is nobody to compare the only candidate with. -/
  | alone (hsize : m.size = 1) : m.CountsOut #[0] [[0]]
  /-- Every two candidates are compared, and then one front after the other goes. -/
  | several {t : Tally} {s : Countdown} (hsize : 2 ≤ m.size) (htally : Tally.ofMatrix m = .ok t)
      (hruns : Countdown.Runs t.beaten (Countdown.start t) s) : m.CountsOut s.ranks s.fronts

end ParetoSelection
