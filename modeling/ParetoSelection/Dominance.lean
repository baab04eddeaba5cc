import ParetoSelection.Scalar

/-!
# Tolerant comparison and Pareto dominance

Rounding noise must not decide which of two candidates is better, so two
values only count as different if they differ by more than a tolerance. The
tolerance is relative to the larger magnitude – except next to an exact zero,
where a relative one would make every other number different, and `eps` is
taken as it is.

A row dominates another if it is better somewhere and worse nowhere. One pass
over the two rows settles it, and the pass ends early as soon as each side has
been better once.
-/

namespace ParetoSelection

open Scalar

variable {α : Type} [Scalar α]

/-- The relative tolerance that ranking uses. -/
def defaultTolerance : α := 1e-10

/-- By how much two values may differ and still count as equal. -/
def toleranceAt (eps lhs rhs : α) : α :=
  if lhs == 0 || rhs == 0 then eps else maxNum (Scalar.abs lhs) (Scalar.abs rhs) * eps

/-- **Equal up to the tolerance.** -/
def isEqualWithin (eps lhs rhs : α) : Bool :=
  Scalar.abs (lhs - rhs) ≤ toleranceAt eps lhs rhs

/-- **Smaller by more than the tolerance.** -/
def isLessWithin (eps lhs rhs : α) : Bool :=
  toleranceAt eps lhs rhs < rhs - lhs

/-- Which of two rows is better. -/
inductive Dominance where
  /-- The first row dominates the second. -/
  | left
  /-- The second row dominates the first. -/
  | right
  /-- Neither row dominates the other. -/
  | neither
deriving DecidableEq, Repr

namespace Dominance

/-- What follows once both rows are read, from whether each of them was better
somewhere. -/
def verdict : (aBetter bBetter : Bool) → Dominance
  | true, false => left
  | false, true => right
  | _, _ => neither

/-- The pass over what is left of two rows, knowing which side has been better
so far. -/
def scan (eps : α) (aBetter bBetter : Bool) : (a b : List α) → Dominance
  | x :: a, y :: b =>
    let aAhead := isLessWithin eps y x
    let bAhead := !aAhead && isLessWithin eps x y
    if (aBetter || aAhead) && (bBetter || bAhead) then neither
    else scan eps (aBetter || aAhead) (bBetter || bAhead) a b
  | _, _ => verdict aBetter bBetter

/-- **The dominance comparison with tolerance `eps`.** -/
def compareWithin (eps : α) (a b : List α) : Dominance :=
  scan eps false false a b

/-- The dominance comparison with the tolerance of ranking. -/
def compare (a b : List α) : Dominance :=
  compareWithin defaultTolerance a b

end Dominance

/-- **Whether the first row dominates the second.** -/
def dominates (a b : List α) : Bool :=
  Dominance.compare a b = .left

end ParetoSelection
