import ParetoSelection.Access
import ParetoSelection.SimplexLattice

/-!
# Emitting a lattice from one buffer

The points of a lattice are emitted by a recursion over the coordinates that has one buffer
for all of them. Each level writes its coordinate into the buffer for one numerator after the
other and leaves the coordinates after it to the next level; the last level writes what
remains, and a copy of the buffer is a point. Nothing is ever taken back: a coordinate stays
in the buffer until it is overwritten.

`points` says which points these are and in which order, without a buffer, and `checkedPoints`
whether a table has room for them.
-/

namespace ParetoSelection

namespace SimplexLattice

variable {α : Type}

/-- The buffer of a recursion and what it has emitted. -/
structure Emission (α : Type) where
  /-- The coordinates that have been written last. -/
  current : Array α
  /-- The points so far. -/
  emitted : Array (List α)

variable [Scalar α]

/-- **The coordinate in a place of the buffer** is a multiple of the step. -/
def Emission.place (state : Emission α) (divisions depth numerator : Nat) :
    Except Failure (Emission α) := do
  let coordinate := Scalar.ofNat numerator / Scalar.ofNat divisions
  return { state with current := ← writeAt state.current depth coordinate }

/-- **The level of one coordinate**, with `further` levels below it and `remaining` steps for
all of them. -/
def emit (divisions : Nat) : (further depth remaining : Nat) → Emission α →
    Except Failure (Emission α)
  | 0, depth, remaining, state => do
    let state ← state.place divisions depth remaining
    return { state with emitted := state.emitted.push state.current.toList }
  | further + 1, depth, remaining, state =>
    (List.range' 0 (remaining + 1)).foldlM (fun state i => do
      emit divisions further (depth + 1) (remaining - i) (← state.place divisions depth i)) state

/-- **All points of a lattice**, from a buffer of zeros, if a table has room for as many as
have been counted. -/
def emitAll (dim divisions : Nat) : Except Failure (List (List α)) := do
  if dim = 0 ∨ divisions = 0 then return []
  if maxPoints < size dim divisions then throw .tooLarge
  let state : Emission α := { current := Array.replicate dim (Scalar.ofNat 0), emitted := #[] }
  return (← emit divisions (dim - 1) 0 divisions state).emitted.toList

end SimplexLattice

end ParetoSelection
