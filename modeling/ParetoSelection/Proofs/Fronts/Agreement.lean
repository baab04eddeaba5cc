import ParetoSelection.Proofs.Binary64.Separation
import ParetoSelection.Proofs.Fronts.Strategy
import ParetoSelection.Proofs.Maxima.Graded

/-!
# Where all strategies agree

Four algorithms rank a population: counting dominators, divide and conquer,
elimination, and for a single objective the candidates tied with the maximum.
They share no step. What they share is the answer, where values are told apart
by more than the tolerance (`rankWith_eq_rankWith`): each of them then finds the
layers of dominance, the layers are determined up to the order within each, and
the last step of every ranking puts each front in order.

On binary64 patterns the condition is `IsSeparated`. Values of one objective are
the same number or differ beyond the tolerance, and an objective does not have
both zeros: dominance takes them for the same number, but the sort puts one of
them first, and divide and conquer relies on what comes first.
-/

namespace ParetoSelection

open Relation

variable {α : Type} [Scalar α]

/-- **A matrix that is compared by grades**: rows of equal length with at least
one objective, whose values are compared by their grades, and are numbers
above negative infinity. -/
structure FitnessMatrix.IsGraded (grade : α → Int) (m : FitnessMatrix α) : Prop where
  /-- Any two rows are compared by grades. -/
  rows : ∀ i < m.size, ∀ j < m.size, RowsGraded grade (m.row i) (m.row j)
  /-- Every row has an objective. -/
  row_ne_nil : ∀ i < m.size, m.row i ≠ []
  /-- Every value equals itself. -/
  bne_self : ∀ i < m.size, ∀ x ∈ m.row i, (x != x) = false
  /-- Every value is above negative infinity. -/
  negInfinity_lt : ∀ i < m.size, ∀ x ∈ m.row i, Scalar.negInfinity < x

namespace FitnessMatrix.IsGraded

variable {grade : α → Int} {m : FitnessMatrix α}

/-- **Every strategy's finder finds the front** of any candidates of the
matrix. -/
theorem isFrontOf_run (h : m.IsGraded grade) {strategy : Strategy} {finder : Finder}
    (hfinder : strategy.finder m = some finder) {xs : List Nat} (hxs : xs ⊆ List.range m.size) :
    IsFrontOf m.Dominates xs (finder.run m.row xs) := by
  have hlt {i : Nat} (hi : i ∈ xs) : i < m.size := List.mem_range.1 (hxs hi)
  have hrows : ∀ i ∈ xs, ∀ j ∈ xs, RowsGraded grade (m.row i) (m.row j) :=
    fun i hi j hj => h.rows i (hlt hi) j (hlt hj)
  have hne : ∀ i ∈ xs, m.row i ≠ [] := fun i hi => h.row_ne_nil i (hlt hi)
  have hkung : IsFrontOf (Maxima.Beats m.row) xs (Maxima.kung m.row xs) :=
    Maxima.isFrontOf_kung hrows hne
  have hbeats : ∀ i ∈ xs, ∀ j ∈ xs, Maxima.Beats m.row i j ↔ m.Dominates i j :=
    fun i hi j hj => ⟨fun hij => ⟨hlt hi, hlt hj, hij⟩, fun hij => hij.2.2⟩
  refine IsFrontOf.congr ?_ hbeats
  cases strategy with
  | pairwise => exact absurd hfinder (Option.some_ne_none finder).symm
  | kung =>
    obtain rfl : Finder.kung = finder := Option.some.inj hfinder
    exact hkung
  | best =>
    obtain rfl : Finder.best = finder := Option.some.inj hfinder
    exact Maxima.isFrontOf_best_of_rowsGraded hrows
  | auto =>
    obtain rfl : m.finder = finder := Option.some.inj hfinder
    by_cases hwidth : m.width = 1
    · have hone : m.finder = .oneObjective := if_pos hwidth
      rw [hone]
      refine Maxima.isFrontOf_oneObjective hrows (fun i hi => ?_)
        (fun i hi => h.bne_self i (hlt hi)) (fun i hi => h.negInfinity_lt i (hlt hi))
      -- every row is as long as the first one
      have hzero : 0 < m.size := Nat.lt_of_le_of_lt (Nat.zero_le i) (hlt hi)
      exact (h.rows i (hlt hi) 0 hzero).length_eq.trans hwidth
    · have hmany : m.finder = .kung := if_neg hwidth
      rw [hmany]
      exact hkung

/-- Dominance is a strict order. -/
theorem isStrictOn_dominates (h : m.IsGraded grade) :
    IsStrictOn m.Dominates (List.range m.size) := by
  have hstrict : IsStrictOn (Maxima.Beats m.row) (List.range m.size) :=
    Maxima.isStrictOn_of_rowsGraded fun i hi j hj =>
      h.rows i (List.mem_range.1 hi) j (List.mem_range.1 hj)
  exact ⟨fun i hi hii => hstrict.irrefl i hi hii.2.2, fun i hi j hj k hk hij hjk =>
    ⟨hij.1, hjk.2.1, hstrict.trans i hi j hj k hk hij.2.2 hjk.2.2⟩⟩

/-- So it has no cycle. -/
theorem isAcyclic (h : m.IsGraded grade) : m.IsAcyclic :=
  h.isStrictOn_dominates.acyclic fun _ _ hij =>
    ⟨List.mem_range.2 hij.1, List.mem_range.2 hij.2.1⟩

/-- **Every strategy ranks by the layers of dominance**, each put in order. -/
theorem exists_isLayered (h : m.IsGraded grade) (strategy : Strategy) :
    ∃ r : RankedFronts, m.rankWith strategy = r.ascending ∧ r.size = m.size
      ∧ IsLayered m.Dominates m.size [] r.fronts := by
  unfold FitnessMatrix.rankWith
  cases hfinder : strategy.finder m with
  | none =>
    exact ⟨m.pairwiseFronts, rfl, Pairwise.size_pairwiseFronts m,
      isLayered_pairwiseFronts_of_isAcyclic h.isAcyclic⟩
  | some finder =>
    refine ⟨RankedFronts.ofPeeling (finder.run m.row) m.size, rfl, rfl, ?_⟩
    refine isLayered_peel (fun i j hij => hij.1) (fun xs hxs => h.isFrontOf_run hfinder hxs)
      List.nodup_range fun i => ?_
    rw [List.mem_range]
    exact (and_iff_left List.not_mem_nil).symm

/-- Fronts with the same members are the same once they are in order. -/
theorem map_stableSort_eq {fronts fronts' : List (List Nat)}
    (h : List.Forall₂ List.Perm fronts fronts') :
    fronts.map (stableSort fun i j => i ≤ j) = fronts'.map (stableSort fun i j => i ≤ j) := by
  induction h with
  | nil => rfl
  | @cons front front' _ _ hperm _ ih =>
    rw [List.map_cons, List.map_cons, ih]
    refine congrArg (· :: _) (List.Perm.eq_of_pairwise (fun a b _ _ => Nat.le_antisymm)
      (pairwise_le_stableSort front) (pairwise_le_stableSort front') ?_)
    exact ((stableSort_perm _ front).trans hperm).trans (stableSort_perm _ front').symm

/-- **All strategies give the same ranking** of a matrix that is compared by
grades. -/
theorem rankWith_eq (h : m.IsGraded grade) (s t : Strategy) : m.rankWith s = m.rankWith t := by
  obtain ⟨r, hr, hsize, hlayered⟩ := h.exists_isLayered s
  obtain ⟨r', hr', hsize', hlayered'⟩ := h.exists_isLayered t
  rw [hr, hr', RankedFronts.ascending, RankedFronts.ascending, hsize, hsize',
    map_stableSort_eq (hlayered.forall₂_perm hlayered' fun _ => Iff.rfl)]

/-- The fronts of the ranking are in ascending order. -/
theorem pairwise_lt (h : m.IsGraded grade) (strategy : Strategy) :
    ∀ front ∈ (m.rankWith strategy).fronts, front.Pairwise (· < ·) := by
  obtain ⟨r, hr, -, hlayered⟩ := h.exists_isLayered strategy
  rw [hr]
  exact fun front hfront =>
    RankedFronts.pairwise_lt_ascending (hlayered.nodup List.nodup_nil) hfront

/-- None of them reads outside the matrix, or peels for ever. -/
theorem checkedRank_eq_ok (h : m.IsGraded grade) (strategy : Strategy) :
    m.checkedRank strategy = .ok (m.rankWith strategy) :=
  checkedRank_eq_ok_of_isSelection h.row_ne_nil fun _ hfinder _ hxs =>
    (h.isFrontOf_run hfinder hxs).isSelection

end FitnessMatrix.IsGraded

/-! ## On binary64 patterns -/

open Binary64 in
/-- **A matrix whose values the tolerance does not confuse**: rows of equal
length with at least one objective, finite values, and in each objective values
that are the same number or not equal up to the tolerance, without both
zeros. -/
structure FitnessMatrix.IsSeparated (m : FitnessMatrix Binary64) : Prop where
  /-- All rows are equally long. -/
  length_eq : ∀ i < m.size, (m.row i).length = m.width
  /-- There is an objective. -/
  width_pos : 0 < m.size → 0 < m.width
  /-- All values are finite. -/
  isFinite : ∀ i < m.size, ∀ x ∈ m.row i, x.IsFinite
  /-- Two values of an objective are the same number or not equal up to the
  tolerance. -/
  separated : ∀ i < m.size, ∀ j < m.size, ∀ k < m.width,
    ∀ x ∈ (m.row i)[k]?, ∀ y ∈ (m.row j)[k]?, x.Separated y
  /-- No objective has both zeros. -/
  one_zero : ∀ i < m.size, ∀ j < m.size, ∀ k < m.width,
    ¬ ((m.row i)[k]? = some 0 ∧ (m.row j)[k]? = some negZero)

namespace FitnessMatrix.IsSeparated

variable {m : FitnessMatrix Binary64}

open Binary64

/-- The values of any two rows are told apart. -/
theorem forall₂_toldApart (h : m.IsSeparated) {i j : Nat} (hi : i < m.size) (hj : j < m.size) :
    List.Forall₂ ToldApart (m.row i) (m.row j) := by
  refine List.forall₂_iff_get.2 ⟨(h.length_eq i hi).trans (h.length_eq j hj).symm, ?_⟩
  intro k hki hkj
  have hk : k < m.width := by rwa [h.length_eq i hi] at hki
  have hx : (m.row i)[k]? = some ((m.row i).get ⟨k, hki⟩) := List.getElem?_eq_getElem hki
  have hy : (m.row j)[k]? = some ((m.row j).get ⟨k, hkj⟩) := List.getElem?_eq_getElem hkj
  refine ⟨h.separated i hi j hj k hk _ hx _ hy, fun hzero => h.one_zero i hi j hj k hk ?_⟩
  rw [hx, hy, hzero.1, hzero.2]
  exact ⟨rfl, rfl⟩

/-- **Separated values are compared by their grades.** -/
theorem isGraded (h : m.IsSeparated) : m.IsGraded grade := by
  refine ⟨fun i hi j hj => ?_, fun i hi hnil => ?_, fun i hi x hx => ?_, fun i hi x hx => ?_⟩
  · exact rowsGraded_of_toldApart (h.isFinite i hi) (h.isFinite j hj)
      (h.forall₂_toldApart hi hj) (h.forall₂_toldApart hj hi)
  · have hlen := h.length_eq i hi
    rw [hnil] at hlen
    have hpos := h.width_pos (Nat.lt_of_le_of_lt (Nat.zero_le i) hi)
    rw [← hlen] at hpos
    exact Nat.lt_irrefl 0 hpos
  · exact Binary64.bne_self (h.isFinite i hi x hx)
  · exact Binary64.negInfinity_lt (h.isFinite i hi x hx)

end FitnessMatrix.IsSeparated

/-- **All strategies agree** on a matrix whose values the tolerance does not
confuse: they return the same fronts and so the same ranks, each front in
ascending order, and none of them reads outside the matrix. -/
theorem rankWith_eq_rankWith {m : FitnessMatrix Binary64} (h : m.IsSeparated) (s t : Strategy) :
    m.rankWith s = m.rankWith t
      ∧ (m.rankWith s).ranks = (m.rankWith t).ranks
      ∧ (∀ front ∈ (m.rankWith s).fronts, front.Pairwise (· < ·))
      ∧ m.checkedRank s = .ok (m.rankWith s) := by
  have hgraded := h.isGraded
  have heq := hgraded.rankWith_eq s t
  exact ⟨heq, congrArg RankedFronts.ranks heq, hgraded.pairwise_lt s, hgraded.checkedRank_eq_ok s⟩

/-- Four rows of separated values, with ties in both objectives and a negative
zero. -/
def spacedRows : FitnessMatrix Binary64 :=
  let one : Binary64 := ⟨0x3ff0000000000000⟩
  let two : Binary64 := ⟨0x4000000000000000⟩
  let minusOne : Binary64 := ⟨0xbff0000000000000⟩
  #[[two, .negZero], [one, one], [one, .negZero], [two, minusOne]]

/-- All strategies put the four rows into the same two fronts. -/
theorem rankWith_spacedRows :
    spacedRows.IsSeparated
      ∧ spacedRows.rankWith .pairwise = ⟨4, [[0, 1], [2, 3]]⟩
      ∧ ∀ s, spacedRows.rankWith s = spacedRows.rankWith .pairwise := by
  have hseparated : spacedRows.IsSeparated :=
    { length_eq := by decide +kernel
      width_pos := by decide +kernel
      isFinite := by decide +kernel
      separated := by decide +kernel
      one_zero := by decide +kernel }
  exact ⟨hseparated, by decide +kernel, fun s => (rankWith_eq_rankWith hseparated s .pairwise).1⟩

end ParetoSelection
