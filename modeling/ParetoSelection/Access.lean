import ParetoSelection.Failure

/-!
# Checked access to an array

Reading, writing, exchanging and removing elements at positions that have to be there. An
access outside the array is a failure, and so is a loop in which there is one.
-/

namespace ParetoSelection

variable {β : Type}

/-- The element at a position. -/
def readAt (xs : Array β) (i : Nat) : Except Failure β :=
  match xs[i]? with
  | some x => .ok x
  | none => .error .outOfRange

/-- An array with another element at a position. -/
def writeAt (xs : Array β) (i : Nat) (x : β) : Except Failure (Array β) :=
  if h : i < xs.size then .ok (xs.set i x h) else .error .outOfRange

/-- An array with the elements at two positions exchanged. -/
def exchangeAt (xs : Array β) (i j : Nat) : Except Failure (Array β) :=
  if h : i < xs.size ∧ j < xs.size then .ok (xs.swap i j h.1 h.2) else .error .outOfRange

/-- An array without the element at a position. Those behind it move up. -/
def removeAt (xs : Array β) (i : Nat) : Except Failure (Array β) :=
  if h : i < xs.size then .ok (xs.eraseIdx i h) else .error .outOfRange

/-- An array without the element at a position, which the last one fills. -/
def fillGapAt (xs : Array β) (i : Nat) : Except Failure (Array β) := do
  let last ← readAt xs (xs.size - 1)
  return (← writeAt xs i last).pop

/-- The elements from one position to before another. -/
def sliceOf (xs : List β) (first last : Nat) : Except Failure (List β) :=
  if first ≤ last ∧ last ≤ xs.length then .ok ((xs.take last).drop first) else .error .outOfRange

/-- An array with another element at several positions. -/
def writeAll (xs : Array β) (x : β) : List Nat → Except Failure (Array β)
  | [] => .ok xs
  | i :: positions => do
    let xs ← writeAt xs i x
    writeAll xs x positions

/-- Whether a check that may fail holds of one of some candidates. The first of whom it does
ends the search. -/
def anyOf (check : Nat → Except Failure Bool) : List Nat → Except Failure Bool
  | [] => .ok false
  | i :: rest => do if ← check i then return true else anyOf check rest

/-- Those of some candidates of whom a check that may fail holds. -/
def keepIf (check : Nat → Except Failure Bool) : List Nat → Except Failure (List Nat)
  | [] => .ok []
  | i :: rest => do
    let holds ← check i
    let kept ← keepIf check rest
    return if holds then i :: kept else kept

/-- How many candidates at the front pass a check that may fail. The first who does not ends
the count. -/
def leading (check : Nat → Except Failure Bool) : List Nat → Except Failure Nat
  | [] => .ok 0
  | i :: rest => do if ← check i then return (← leading check rest) + 1 else return 0

end ParetoSelection
