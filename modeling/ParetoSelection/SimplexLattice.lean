import ParetoSelection.Failure
import ParetoSelection.Scalar

/-!
# Reference directions on a simplex lattice

The reference directions of a run with `dim` objectives are the points whose
coordinates are multiples of `1/H` and sum to one. There is one of them for
every way to write `H` as an ordered sum of `dim` natural numbers
(`compositions`), hence a binomial number, and a run picks the division count
`H` whose lattice size is nearest to its population.

Sizes are counted in 64-bit words. A lattice too large for a word has the
largest word as its size – and the count settles for it as soon as one of the
products on the way does not fit.

Not every lattice that can be counted can be held. `points` is the lattice
itself; `checkedPoints` lays it out if there is room for a table of its points.
`emitAll` does so point by point from one buffer.
-/

namespace ParetoSelection

/-- The largest 64-bit word. -/
def maxWord : Nat := 0xffffffffffffffff

namespace SimplexLattice

/-- The remaining factors of a binomial coefficient, when `done` of them are
multiplied up to `product`. After `k` factors the product is divided by `k`,
which is exact. -/
def chooseFrom (n : Nat) : (steps done product : Nat) → Nat
  | 0, _, product => product
  | steps + 1, done, product =>
    if maxWord < product * (n - done) then maxWord
    else chooseFrom n steps (done + 1) (product * (n - done) / (done + 1))

/-- **The number of ways to choose `k` of `n` things**, as a word. -/
def choose (n k : Nat) : Nat :=
  if n < k then 0 else chooseFrom n (min k (n - k)) 0 1

/-- **The size of the lattice** for `dim` objectives with `divisions` steps. -/
def size (dim divisions : Nat) : Nat :=
  if dim = 0 then 0 else choose (divisions + dim - 1) (dim - 1)

/-- The first division count from `h` on whose lattice has at least `target`
points. For two objectives or more, a lattice with `target` divisions has. -/
def firstReaching (dim target h : Nat) : Nat :=
  if h < target ∧ size dim h < target then firstReaching dim target (h + 1) else h
termination_by target - h

/-- **The search from a division count upwards**, as a loop: it stops at the
first lattice of at least `target` points and goes on from any smaller one.
There is no run from where no lattice is large enough. -/
inductive Climbs (dim target : Nat) : Nat → Nat → Prop
  /-- The lattice is large enough. -/
  | stop {h : Nat} (hreached : target ≤ size dim h) : Climbs dim target h h
  /-- It is not, and the next one is tried. -/
  | next {h top : Nat} (hbelow : size dim h < target)
      (hrun : Climbs dim target (h + 1) top) : Climbs dim target h top

/-- **The division count whose lattice size is nearest to `target`**, the
smaller of two that are equally near, and at least one. -/
def nearestDivisions (dim target : Nat) : Nat :=
  if dim ≤ 1 then 1
  else
    let h := firstReaching dim target 1
    if h = 1 then 1
    else if target - size dim (h - 1) ≤ size dim h - target then h - 1 else h

/-- **The ways to write `total` as an ordered sum of `parts` natural
numbers**, in ascending lexicographic order. -/
def compositions : (parts total : Nat) → List (List Nat)
  | 0, _ => []
  | 1, total => [[total]]
  | parts + 2, total =>
    (List.range (total + 1)).flatMap fun i =>
      (compositions (parts + 1) (total - i)).map (i :: ·)

variable {α : Type} [Scalar α]

/-- **The points of the lattice**, in ascending lexicographic order. There are
none without objectives or without steps. -/
def points (dim divisions : Nat) : List (List α) :=
  if divisions = 0 then []
  else (compositions dim divisions).map fun numerators =>
    numerators.map fun i => Scalar.ofNat i / Scalar.ofNat divisions

/-- The most points that a table has room for, at 24 bytes for the place of a
point. -/
def maxPoints : Nat := maxBytes / 24

/-- **The points of the lattice**, or a failure if no table has room for as
many. -/
def checkedPoints (dim divisions : Nat) : Except Failure (List (List α)) :=
  if maxPoints < size dim divisions then .error .tooLarge else .ok (points dim divisions)

/-- The division count of a run with `dim` objectives: the given one, or the
one whose lattice size is nearest to `target`. -/
def divisionCount (dim target : Nat) (divisions : Option Nat) : Except SelectionError Nat :=
  if dim < 2 then .error (.configuration (.directionsNeedTwo dim))
  else
    match divisions with
    | some 0 => .error (.configuration .zeroDivisions)
    | some h => .ok h
    | none => .ok (nearestDivisions dim target)

/-- **The reference directions of a run** with `dim` objectives: the lattice
with its division count. -/
def directions (dim target : Nat) (divisions : Option Nat) : Except Failure (List (List α)) := do
  checkedPoints dim (← (divisionCount dim target divisions).mapError .error)

end SimplexLattice

end ParetoSelection
