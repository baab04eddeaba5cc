import ParetoSelection.Maxima.Basic

/-!
# The front by elimination

The algorithm BEST makes one pass per member of the front. A pass carries the
*best* candidate seen so far through the list. Whatever the best dominates is
dropped for good; a candidate that dominates the best takes its place, and the
old best is dropped. At the end nothing examined since then dominates the
best. Where dominance is transitive nothing examined before does either, for it
would have to dominate what the best dominates – so the best belongs to the
front. Candidates passed before it became the best have not been compared with
it yet, and those it dominates are dropped now.

Dropping must not cost a shift of the whole list, so a gap is filled from one
end: among the unexamined candidates by the last of them (`refill`), among the
passed ones by the first of them (`firstToBack`). The order in which later
passes meet the candidates, and with it the order of the front, is the order
that these fillings leave.
-/

namespace ParetoSelection

variable {α ι : Type} [Scalar α]

namespace Maxima

/-- **The candidates during a pass.** -/
structure Pass (ι : Type) where
  /-- Passed before the best became the best. -/
  earlier : List ι
  /-- The best so far. -/
  best : ι
  /-- Compared with the best, and neither dominates the other. -/
  later : List ι

/-- What is left of the unexamined candidates behind a gap: the last of them
moves into it. -/
def refill (unseen : List ι) : List ι :=
  unseen.getLast?.toList ++ unseen.dropLast

@[simp] theorem length_refill (unseen : List ι) : (refill unseen).length = unseen.length := by
  cases unseen with
  | nil => rfl
  | cons x xs => simp [refill, List.getLast?_cons]

/-- What is left of the passed candidates behind a gap at their end: the first
of them moves into it. -/
def firstToBack : (passed : List ι) → List ι
  | [] => []
  | i :: passed => passed ++ [i]

@[simp] theorem length_firstToBack (passed : List ι) :
    (firstToBack passed).length = passed.length := by
  cases passed <;> simp [firstToBack]

variable (row : ι → List α)

/-- Carries the best candidate through the unexamined ones. -/
def Pass.run (p : Pass ι) : (unseen : List ι) → Pass ι
  | [] => p
  | i :: unseen =>
    match Dominance.compare (row p.best) (row i) with
    | .left => run p (refill unseen)
    | .right => run ⟨firstToBack p.earlier ++ p.later, i, []⟩ unseen
    | .neither => run ⟨p.earlier, p.best, p.later ++ [i]⟩ unseen
termination_by unseen => unseen.length

/-- Drops those of the earlier candidates that the best dominates. -/
def Pass.sweep (p : Pass ι) : List ι :=
  p.earlier.foldl
    (fun kept i => if dominates (row p.best) (row i) then firstToBack kept else kept ++ [i]) []

/-- The candidates that the next pass has to look at. -/
def Pass.rest (p : Pass ι) : List ι :=
  p.sweep row ++ refill p.later

/-- A pass loses candidates and gains none. -/
theorem Pass.length_run_le (p : Pass ι) (unseen : List ι) :
    (p.run row unseen).earlier.length + (p.run row unseen).later.length
      ≤ p.earlier.length + p.later.length + unseen.length := by
  fun_induction Pass.run row p unseen with
  | case1 => simp
  | case2 p i unseen h ih => simp at ih ⊢; omega
  | case3 p i unseen h ih => simp at ih ⊢; omega
  | case4 p i unseen h ih => simp at ih ⊢; omega

/-- Sweeping gains no candidate. -/
theorem Pass.length_sweep_le (p : Pass ι) : (p.sweep row).length ≤ p.earlier.length := by
  have key : ∀ (xs kept : List ι),
      (xs.foldl (fun kept i =>
        if dominates (row p.best) (row i) then firstToBack kept else kept ++ [i]) kept).length
        ≤ kept.length + xs.length := by
    intro xs
    induction xs with
    | nil => simp
    | cons i xs ih =>
      intro kept
      simp only [List.foldl_cons, List.length_cons]
      refine Nat.le_trans (ih _) ?_
      split
      · rw [length_firstToBack]
        omega
      · rw [List.length_append, List.length_singleton]
        omega
  simpa [Pass.sweep] using key p.earlier []

/-- A pass leaves fewer candidates than it was given. -/
theorem Pass.length_rest_lt (i : ι) (unseen : List ι) :
    ((Pass.run row ⟨[], i, []⟩ unseen).rest row).length < unseen.length + 1 := by
  have h := Pass.length_run_le row ⟨[], i, []⟩ unseen
  have h' := Pass.length_sweep_le row (Pass.run row ⟨[], i, []⟩ unseen)
  simp [Pass.rest] at h ⊢
  omega

/-- **The front by elimination**, in the order in which its members are
found. -/
def best : (candidates : List ι) → List ι
  | [] => []
  | i :: unseen =>
    let pass := Pass.run row ⟨[], i, []⟩ unseen
    pass.best :: best (pass.rest row)
termination_by candidates => candidates.length
decreasing_by exact Pass.length_rest_lt row i unseen

end Maxima

end ParetoSelection
