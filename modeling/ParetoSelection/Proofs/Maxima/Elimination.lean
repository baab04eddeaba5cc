import ParetoSelection.Proofs.Binary64.Tolerance
import ParetoSelection.Proofs.Fronts.Partition
import ParetoSelection.Proofs.Maxima.Window

/-!
# Elimination on arbitrary values

Tolerant dominance is no order. It is not transitive, since small differences add up, and
since an infinite value is told apart from zero only. But no row dominates itself, whatever
its values (`not_dominates_refl`). So transitivity is the only thing to ask for, and only
among the candidates: where it holds there, elimination finds those whom no other one
dominates, in whatever order they are listed (`mem_eliminate_iff`).
-/

namespace ParetoSelection

open Binary64

/-- Dominance among candidates is a strict order where it is transitive. -/
theorem isStrictOn_beats {ι : Type} {row : ι → List Binary64} {candidates : List ι}
    (htrans : ∀ i ∈ candidates, ∀ j ∈ candidates, ∀ k ∈ candidates,
      dominates (row i) (row j) = true → dominates (row j) (row k) = true →
        dominates (row i) (row k) = true) :
    IsStrictOn (Maxima.Beats row) candidates where
  irrefl i _ := not_dominates_refl (row i)
  trans := htrans

/-- **Elimination finds exactly the front** where dominance among the candidates is
transitive: it does not fail, and it lists each candidate that no other one dominates once,
and nobody else. -/
theorem mem_eliminate_iff {m : FitnessMatrix Binary64} {candidates : List Nat}
    (hnodup : candidates.Nodup) (hmem : ∀ i ∈ candidates, i < m.size)
    (htrans : ∀ i ∈ candidates, ∀ j ∈ candidates, ∀ k ∈ candidates,
      dominates (m.row i) (m.row j) = true → dominates (m.row j) (m.row k) = true →
        dominates (m.row i) (m.row k) = true) :
    ∃ front, m.eliminate candidates = .ok front ∧ Finder.best.find m candidates = .ok front ∧
      front.Nodup ∧
      ∀ i, i ∈ front ↔ i ∈ candidates ∧
        ∀ k ∈ candidates, k ≠ i → ¬ dominates (m.row k) (m.row i) = true := by
  have hfront := Maxima.isFrontOf_best (isStrictOn_beats htrans) fun i _ k _ =>
    compare_eq_right_iff_dominates (m.row i) (m.row k)
  have hfind : Finder.best.find m candidates = .ok (Maxima.best m.row candidates) :=
    if_pos ((m.isDefinedOn_best_iff candidates).2 (Or.inr hmem))
  refine ⟨_, (m.eliminate_eq_find candidates).trans hfind, hfind,
    nodup_of_subperm hfront.subperm hnodup, fun i => (hfront.mem_iff i).trans ?_⟩
  refine and_congr_right fun hi => forall₂_congr fun k hk => ?_
  constructor
  · exact fun hnot _ => hnot
  · rintro hnot hki
    exact hnot (fun heq => not_dominates_refl (m.row i) (heq ▸ hki)) hki

/-- Five rows, one of them with an infinite value and one that is no number anywhere. -/
def staircase : FitnessMatrix Binary64 :=
  let one : Binary64 := ⟨0x3ff0000000000000⟩
  let two : Binary64 := ⟨0x4000000000000000⟩
  let three : Binary64 := ⟨0x4008000000000000⟩
  let nan : Binary64 := ⟨0x7ff8000000000000⟩
  #[[one, one], [one, three], [two, two], [nan, nan], [.negZero, Scalar.infinity]]

/-- Of the five rows, which are not listed in order, those that no other one dominates are
found. -/
theorem staircase_eliminate :
    ∃ front, staircase.eliminate [4, 3, 2, 0, 1] = .ok front ∧
      Finder.best.find staircase [4, 3, 2, 0, 1] = .ok front ∧ front.Nodup ∧
      ∀ i, i ∈ front ↔ i ∈ [4, 3, 2, 0, 1] ∧ ∀ k ∈ [4, 3, 2, 0, 1], k ≠ i →
        ¬ dominates (staircase.row k) (staircase.row i) = true :=
  mem_eliminate_iff (by decide) (by decide) (by decide +kernel)

/-- They are these three. -/
example : staircase.eliminate [4, 3, 2, 0, 1] = .ok [2, 3, 1] := by decide +kernel

end ParetoSelection
