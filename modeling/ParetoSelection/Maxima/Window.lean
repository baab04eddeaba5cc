import ParetoSelection.Access
import ParetoSelection.Maxima.Finder
import ParetoSelection.Proofs.Fitness

/-!
# Elimination within one array

The algorithm BEST needs no other store than the array of its candidates. Those still in
play are in the slots from `first` to before `last`, its *window*, and the window shrinks at
either end: whoever is dropped changes places with the candidate in the outermost slot, and
the slot is left outside.

During a pass (`eliminationScan`) the window falls into four parts: the candidates passed
before the best became the best, the best itself in slot `best`, those passed since then,
and from slot `next` on those still to be examined. A candidate that the best dominates
therefore goes to the back, into the gap of which comes one that is still to be examined.
The old best cannot go there. It goes to the front, and one that has been passed comes into
its slot.

Every access is checked here, those to the slots as well as those to the rows of the
matrix. That the slots are always there, that the loops end, and that what they find is
`Maxima.best`, is a matter of proof.
-/

namespace ParetoSelection

variable {α : Type} [Scalar α]

/-- **The array of candidates and its window**, after a pass. -/
structure Window where
  /-- The candidates, those already dropped included. -/
  slots : Array Nat
  /-- The first slot of the window. -/
  first : Nat
  /-- The slot of the best candidate. -/
  best : Nat
  /-- One past the last slot of the window. -/
  last : Nat
deriving DecidableEq, Repr

namespace FitnessMatrix

variable (m : FitnessMatrix α)

/-- Which of the candidates in two slots is better. -/
def compareSlots (slots : Array Nat) (i j : Nat) : Except Failure Dominance := do
  let a ← readAt m (← readAt slots i)
  let b ← readAt m (← readAt slots j)
  return Dominance.compare a b

/-- **A pass over the window**: carries the best candidate past those from slot `next` on. -/
def eliminationScan (slots : Array Nat) (first best next last : Nat) : Except Failure Window :=
  if next < last then do
    match ← m.compareSlots slots best next with
    | .left =>
      let slots ← exchangeAt slots next (last - 1)
      eliminationScan slots first best next (last - 1)
    | .right =>
      let slots ← exchangeAt slots best first
      eliminationScan slots (first + 1) next (next + 1) last
    | .neither => eliminationScan slots first best (next + 1) last
  else
    return ⟨slots, first, best, last⟩
termination_by last - next

/-- **The sweep after a pass**: of the candidates from slot `next` to before the best, drops
those that the best dominates. It returns the array and the first slot of the window. -/
def eliminationSweep (slots : Array Nat) (first next best : Nat) :
    Except Failure (Array Nat × Nat) :=
  if next < best then do
    if (← m.compareSlots slots best next) = .left then
      let slots ← exchangeAt slots next first
      eliminationSweep slots (first + 1) (next + 1) best
    else
      eliminationSweep slots first (next + 1) best
  else
    return (slots, first)
termination_by best - next

variable {m}

/-- A pass only narrows the window. -/
theorem bounds_of_eliminationScan {slots : Array Nat} {first best next last : Nat} {w : Window}
    (h : m.eliminationScan slots first best next last = .ok w) :
    first ≤ w.first ∧ w.last ≤ last := by
  fun_induction eliminationScan m slots first best next last with
  | case1 slots first best next last hlt ihleft ihright ihneither =>
    obtain ⟨d, -, h⟩ := exists_of_bind_eq_ok h
    cases d with
    | left =>
      obtain ⟨slots', -, h⟩ := exists_of_bind_eq_ok h
      have hbounds := ihleft slots' h
      omega
    | right =>
      obtain ⟨slots', -, h⟩ := exists_of_bind_eq_ok h
      have hbounds := ihright slots' h
      omega
    | neither => exact ihneither h
  | case2 slots first best next last hlt =>
    cases h
    exact ⟨Nat.le_refl _, Nat.le_refl _⟩

/-- So does a sweep. -/
theorem first_le_of_eliminationSweep {slots : Array Nat} {first next best : Nat}
    {r : Array Nat × Nat} (h : m.eliminationSweep slots first next best = .ok r) :
    first ≤ r.2 := by
  fun_induction eliminationSweep m slots first next best with
  | case1 slots first next hlt ihleft ihother =>
    obtain ⟨d, -, h⟩ := exists_of_bind_eq_ok h
    by_cases hleft : d = .left
    · rw [if_pos hleft] at h
      obtain ⟨slots', -, h⟩ := exists_of_bind_eq_ok h
      have hbound := ihleft slots' h
      omega
    · rw [if_neg hleft] at h
      exact ihother h
  | case2 slots first next hlt =>
    cases h
    exact Nat.le_refl _

variable (m)

/-- **The front by elimination within the window**, in the order in which its members are
found: a pass, whose best is a member, then the sweep; and the member is dropped to the
back. -/
def eliminateWindow (slots : Array Nat) (first last : Nat) : Except Failure (List Nat) :=
  if first < last then
    match _hscan : m.eliminationScan slots first first (first + 1) last with
    | .error e => .error e
    | .ok w => do
      let member ← readAt w.slots w.best
      match _hsweep : m.eliminationSweep w.slots w.first w.first w.best with
      | .error e => .error e
      | .ok (slots, first) =>
        let slots ← exchangeAt slots w.best (w.last - 1)
        return member :: (← eliminateWindow slots first (w.last - 1))
  else
    return []
termination_by last - first
decreasing_by
  have hfirst := first_le_of_eliminationSweep _hsweep
  have hbounds := bounds_of_eliminationScan _hscan
  dsimp only at hfirst
  omega

/-- **The front of some candidates of a matrix**, found within one array. -/
def eliminate (candidates : List Nat) : Except Failure (List Nat) :=
  m.eliminateWindow candidates.toArray 0 candidates.length

end FitnessMatrix

end ParetoSelection
