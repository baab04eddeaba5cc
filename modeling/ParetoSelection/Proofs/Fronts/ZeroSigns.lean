import ParetoSelection.Proofs.Binary64.Zeros
import ParetoSelection.Proofs.Fronts.Comparisons
import ParetoSelection.Proofs.Fronts.Survival

/-!
# Rankings and the sign of zero

A matrix may have both zeros in it, and as numbers they are the same. Counting
dominators, elimination and the shortcut for one objective see numbers only, so they
rank a matrix as they rank it with every negative zero replaced by a positive one.

Divide and conquer does not. It sorts by the total order, which puts negative zero
below positive zero, and then takes it that nothing is dominated by what follows it.
Where two candidates differ in the sign of a zero and then in a later objective, the
one with the positive zero comes first and may be dominated by the other; the
algorithm never looks. What it finds are the layers of *dominance by a candidate that
precedes* (`DominatesFromAbove`), so it ranks a matrix rightly exactly if every
candidate behind the first front has a dominator of the front before that precedes it
(`FitnessMatrix.checkedRank_zeroSigns`).
-/

namespace ParetoSelection

open Binary64

/-! ## Comparisons of rows -/

/-- The first value, or zero where there is none, without the sign of zero. -/
theorem headD_map_dropZeroSign (a : List Binary64) :
    (a.map dropZeroSign).headD 0 = (a.headD 0).dropZeroSign := by
  cases a with
  | nil => rfl
  | cons => rfl

/-- Comparing two rows does not see the sign of zero. -/
theorem compare_map_dropZeroSign (a b : List Binary64) :
    Dominance.compare (a.map dropZeroSign) (b.map dropZeroSign) = Dominance.compare a b := by
  have hscan (aBetter bBetter : Bool) :
      Dominance.scan defaultTolerance aBetter bBetter (a.map dropZeroSign) (b.map dropZeroSign)
        = Dominance.scan defaultTolerance aBetter bBetter a b := by
    induction a generalizing b aBetter bBetter with
    | nil => rfl
    | cons x a ih =>
      cases b with
      | nil => rfl
      | cons y b =>
        rw [List.map_cons, List.map_cons, Dominance.scan, Dominance.scan,
          isLessWithin_dropZeroSign, isLessWithin_dropZeroSign, ih]
  exact hscan false false

/-- Nor does dominance. -/
theorem dominates_map_dropZeroSign (a b : List Binary64) :
    dominates (a.map dropZeroSign) (b.map dropZeroSign) = dominates a b := by
  unfold dominates
  rw [compare_map_dropZeroSign]

/-- Nor does the short test for a row and one that precedes it. -/
theorem isDominatedFromAbove_map_dropZeroSign (lower upper : List Binary64) :
    Maxima.isDominatedFromAbove (lower.map dropZeroSign) (upper.map dropZeroSign)
      = Maxima.isDominatedFromAbove lower upper := by
  have hrest (a b : List Binary64) :
      Maxima.restComparison (a.map dropZeroSign) (b.map dropZeroSign)
        = Maxima.restComparison a b := by
    induction a generalizing b with
    | nil => rfl
    | cons x a ih =>
      cases b with
      | nil => rfl
      | cons y b =>
        rw [List.map_cons, List.map_cons, Maxima.restComparison, Maxima.restComparison,
          isLessWithin_dropZeroSign, isLessWithin_dropZeroSign, ih]
  unfold Maxima.isDominatedFromAbove
  rw [← List.map_tail, ← List.map_tail, hrest, headD_map_dropZeroSign, headD_map_dropZeroSign,
    isLessWithin_dropZeroSign]

/-- Rows of equal length are sorted by the places of their values in the total
order. -/
theorem lexDescending_eq_compare_orderKey {a b : List Binary64} (h : a.length = b.length) :
    lexDescending a b = compare (b.map orderKey) (a.map orderKey) :=
  lexDescending_eq_compare (List.forall₂_iff_get.2 ⟨h, fun _ _ _ => rfl⟩)

namespace FitnessMatrix

/-- **The matrix with positive zero in place of negative zero.** -/
def dropZeroSigns (m : FitnessMatrix Binary64) : FitnessMatrix Binary64 :=
  m.map (List.map dropZeroSign)

variable {m : FitnessMatrix Binary64} {strategy : Strategy}

/-- There are as many candidates. -/
@[simp]
theorem size_dropZeroSigns (m : FitnessMatrix Binary64) : m.dropZeroSigns.size = m.size :=
  Array.size_map

/-- Their rows have positive zero in place of negative zero. -/
@[simp]
theorem row_dropZeroSigns (m : FitnessMatrix Binary64) (i : Nat) :
    m.dropZeroSigns.row i = (m.row i).map dropZeroSign := by
  unfold row dropZeroSigns
  rw [Array.getD_eq_getD_getElem?, Array.getElem?_map, Array.getD_eq_getD_getElem?]
  cases m[i]? <;> rfl

/-- There are as many objectives. -/
@[simp]
theorem width_dropZeroSigns (m : FitnessMatrix Binary64) : m.dropZeroSigns.width = m.width := by
  unfold width
  rw [row_dropZeroSigns, List.length_map]

/-- Replacing the zeros once is enough. -/
@[simp]
theorem dropZeroSigns_dropZeroSigns (m : FitnessMatrix Binary64) :
    m.dropZeroSigns.dropZeroSigns = m.dropZeroSigns := by
  have hrow : List.map dropZeroSign ∘ List.map dropZeroSign = List.map dropZeroSign := by
    rw [List.map_comp_map]
    exact congrArg List.map (funext dropZeroSign_dropZeroSign)
  unfold dropZeroSigns
  rw [Array.map_map, hrow]

/-- Who dominates whom does not depend on the sign of zero. -/
theorem dominates_dropZeroSigns_iff {i j : Nat} :
    m.dropZeroSigns.Dominates i j ↔ m.Dominates i j := by
  unfold Dominates
  rw [size_dropZeroSigns, row_dropZeroSigns, row_dropZeroSigns, dominates_map_dropZeroSign]

/-! ## Finders that see numbers only -/

/-- The shortcut for one objective does not see the sign of zero. -/
theorem oneObjective_dropZeroSigns (candidates : List Nat) :
    Maxima.oneObjective m.dropZeroSigns.row candidates
      = Maxima.oneObjective m.row candidates := by
  have hfirst (i : Nat) : Maxima.firstObjective m.dropZeroSigns.row i
      = (Maxima.firstObjective m.row i).dropZeroSign := by
    unfold Maxima.firstObjective
    rw [row_dropZeroSigns, headD_map_dropZeroSign]
  have hbest : candidates.foldl
        (fun best i => Scalar.maxNum best (Maxima.firstObjective m.dropZeroSigns.row i))
        Scalar.negInfinity
      = (candidates.foldl (fun best i => Scalar.maxNum best (Maxima.firstObjective m.row i))
          Scalar.negInfinity).dropZeroSign := by
    -- the scan starts at negative infinity, which is no zero
    refine @List.foldl_hom _ _ _ dropZeroSign _ _ candidates Scalar.negInfinity fun best i => ?_
    rw [hfirst, maxNum_dropZeroSign]
  unfold Maxima.oneObjective
  rw [hbest]
  simp only [hfirst, isEqualWithin_dropZeroSign]

/-- A strategy peels with the same finder. -/
theorem finder_dropZeroSigns (m : FitnessMatrix Binary64) (strategy : Strategy) :
    strategy.finder m.dropZeroSigns = strategy.finder m := by
  cases strategy with
  | auto =>
    show some m.dropZeroSigns.finder = some m.finder
    unfold finder
    rw [width_dropZeroSigns]
  | _ => rfl

/-- The finder reads what is there in one matrix if it does in the other. -/
theorem isDefinedOn_dropZeroSigns (finder : Finder) (candidates : List Nat) :
    finder.isDefinedOn m.dropZeroSigns candidates = finder.isDefinedOn m candidates := by
  cases finder <;>
    simp only [Finder.isDefinedOn, size_dropZeroSigns, row_dropZeroSigns, List.isEmpty_map]

/-- Unless it divides and conquers, a strategy that peels does so with one of two finders. -/
theorem finder_cases (h : strategy.finder m ≠ some .kung) {finder : Finder}
    (hfinder : strategy.finder m = some finder) : finder = .oneObjective ∨ finder = .best := by
  cases strategy with
  | pairwise => cases hfinder
  | kung => exact absurd rfl h
  | best => exact .inr (Option.some.inj hfinder).symm
  | auto =>
    have hwidth : m.width = 1 := by
      by_contra hwidth
      exact h (congrArg some (if_neg hwidth))
    have hone : m.finder = .oneObjective := if_pos hwidth
    exact .inl ((Option.some.inj hfinder).symm.trans hone)

/-- Rows are compared as without negative zeros. -/
theorem compare_row_dropZeroSigns (i j : Nat) :
    Dominance.compare (m.dropZeroSigns.row i) (m.dropZeroSigns.row j)
      = Dominance.compare (m.row i) (m.row j) := by
  rw [row_dropZeroSigns, row_dropZeroSigns, compare_map_dropZeroSign]

/-- Neither of the two sees the sign of zero. -/
theorem run_dropZeroSigns {finder : Finder} (h : finder = .oneObjective ∨ finder = .best) :
    finder.run m.dropZeroSigns.row = finder.run m.row := by
  rcases h with rfl | rfl
  · exact funext oneObjective_dropZeroSigns
  · exact funext (Maxima.best_congr compare_row_dropZeroSigns)

/-- Nor do they with what they read checked. -/
theorem search_dropZeroSigns {finder : Finder} (h : finder = .oneObjective ∨ finder = .best) :
    finder.search m.dropZeroSigns = finder.search m := by
  funext candidates
  rw [Finder.search_eq_find, Finder.search_eq_find, Finder.find, Finder.find,
    isDefinedOn_dropZeroSigns, run_dropZeroSigns h]

/-- Nor does counting dominators. -/
theorem pairwiseFronts_dropZeroSigns (m : FitnessMatrix Binary64) :
    m.dropZeroSigns.pairwiseFronts = m.pairwiseFronts := by
  refine pairwiseFronts_congr (size_dropZeroSigns m) fun i j => ?_
  unfold dominates
  rw [compare_row_dropZeroSigns]

/-- **Every strategy but divide and conquer ranks a matrix without regard to the sign
of zero**, whatever the values are. -/
theorem rankWith_dropZeroSigns (h : strategy.finder m ≠ some .kung) :
    m.dropZeroSigns.rankWith strategy = m.rankWith strategy := by
  unfold rankWith
  rw [finder_dropZeroSigns]
  cases hfinder : strategy.finder m with
  | none => exact congrArg RankedFronts.ascending (pairwiseFronts_dropZeroSigns m)
  | some finder =>
    dsimp only
    rw [run_dropZeroSigns (finder_cases h hfinder), size_dropZeroSigns]

/-- So it does with what it reads checked, and it fails without regard to it as well. -/
theorem checkedRank_dropZeroSigns (h : strategy.finder m ≠ some .kung) :
    m.dropZeroSigns.checkedRank strategy = m.checkedRank strategy := by
  unfold checkedRank
  rw [finder_dropZeroSigns]
  cases hfinder : strategy.finder m with
  | none =>
    exact congrArg (fun fronts => Except.ok (RankedFronts.ascending fronts))
      (pairwiseFronts_dropZeroSigns m)
  | some finder =>
    dsimp only
    rw [search_dropZeroSigns (finder_cases h hfinder), size_dropZeroSigns]

/-! ## Divide and conquer -/

/-- **A matrix of finite rows of equal length whose values the tolerance does not
confuse**, with any zeros. -/
structure IsSpaced (m : FitnessMatrix Binary64) : Prop where
  /-- All rows are equally long. -/
  length_eq : ∀ i < m.size, (m.row i).length = m.width
  /-- All values are finite. -/
  isFinite : ∀ i < m.size, ∀ x ∈ m.row i, x.IsFinite
  /-- Two values of an objective are the same number or not equal up to the
  tolerance. -/
  separated : ∀ i < m.size, ∀ j < m.size, ∀ k < m.width,
    ∀ x ∈ (m.row i)[k]?, ∀ y ∈ (m.row j)[k]?, x.Separated y

/-- **A candidate dominates one that it precedes** in the order in which candidates are
sorted. -/
def DominatesFromAbove (m : FitnessMatrix Binary64) (i j : Nat) : Prop :=
  m.Dominates i j ∧ lexDescending (m.row i) (m.row j) = .lt

namespace IsSpaced

/-- Without negative zeros the values are told apart in every way. -/
theorem isSeparated_dropZeroSigns (h : m.IsSpaced) (hwidth : 0 < m.width) :
    m.dropZeroSigns.IsSeparated := by
  refine ⟨fun i hi => ?_, fun _ => ?_, fun i hi x hx => ?_, ?_, ?_⟩
  · rw [size_dropZeroSigns] at hi
    rw [row_dropZeroSigns, List.length_map, width_dropZeroSigns, h.length_eq i hi]
  · rwa [width_dropZeroSigns]
  · rw [size_dropZeroSigns] at hi
    rw [row_dropZeroSigns] at hx
    obtain ⟨y, hy, rfl⟩ := List.mem_map.1 hx
    exact (h.isFinite i hi y hy).dropZeroSign
  · intro i hi j hj k hk x hx y hy
    rw [size_dropZeroSigns] at hi hj
    rw [width_dropZeroSigns] at hk
    rw [row_dropZeroSigns, List.getElem?_map, Option.mem_map] at hx hy
    obtain ⟨x', hx', rfl⟩ := hx
    obtain ⟨y', hy', rfl⟩ := hy
    exact separated_dropZeroSign.2 (h.separated i hi j hj k hk x' hx' y' hy')
  · rintro i - j - k - ⟨-, hy⟩
    rw [row_dropZeroSigns, List.getElem?_map] at hy
    obtain ⟨y, -, hy⟩ := Option.map_eq_some_iff.1 hy
    exact dropZeroSign_ne_negZero y hy

/-- Dominance is a strict order. -/
theorem isStrictOn_dominates (h : m.IsSpaced) (hwidth : 0 < m.width) :
    IsStrictOn m.Dominates (List.range m.size) := by
  have hstrict := (h.isSeparated_dropZeroSigns hwidth).isGraded.isStrictOn_dominates
  have hD : m.dropZeroSigns.Dominates = m.Dominates :=
    funext₂ fun _ _ => propext dominates_dropZeroSigns_iff
  rwa [hD, size_dropZeroSigns] at hstrict

/-- Rows are sorted by the places of their values in the total order. -/
theorem lexDescending_eq (h : m.IsSpaced) {i j : Nat} (hi : i < m.size) (hj : j < m.size) :
    lexDescending (m.row i) (m.row j)
      = compare ((m.row j).map orderKey) ((m.row i).map orderKey) :=
  lexDescending_eq_compare_orderKey ((h.length_eq i hi).trans (h.length_eq j hj).symm)

/-- Dominance by a candidate that precedes is a strict order. -/
theorem isStrictOn_dominatesFromAbove (h : m.IsSpaced) (hwidth : 0 < m.width) :
    IsStrictOn m.DominatesFromAbove (List.range m.size) := by
  have hstrict := h.isStrictOn_dominates hwidth
  refine ⟨fun i hi hii => hstrict.irrefl i hi hii.1, fun i hi j hj k hk hij hjk => ?_⟩
  refine ⟨hstrict.trans i hi j hj k hk hij.1 hjk.1, ?_⟩
  have hfirst := hij.2
  have hsecond := hjk.2
  rw [List.mem_range] at hi hj hk
  rw [h.lexDescending_eq hi hj] at hfirst
  rw [h.lexDescending_eq hj hk] at hsecond
  rw [h.lexDescending_eq hi hk]
  exact Std.TransCmp.lt_trans hsecond hfirst

/-- Every row has an objective, if there is one. -/
theorem row_ne_nil (h : m.IsSpaced) (hwidth : 0 < m.width) : ∀ i < m.size, m.row i ≠ [] := by
  intro i hi
  rw [← List.length_pos_iff, h.length_eq i hi]
  exact hwidth

/-- **The short test is the dominance test** for a candidate and one that precedes it,
for the sort puts the first objectives in order as numbers. -/
theorem isDominatedFromAbove_eq (h : m.IsSpaced) (hwidth : 0 < m.width) {i j : Nat}
    (hi : i < m.size) (hj : j < m.size)
    (hle : (lexDescending (m.row i) (m.row j)).isLE = true) :
    Maxima.isDominatedFromAbove (m.row j) (m.row i) = dominates (m.row i) (m.row j) := by
  have hgraded := (h.isSeparated_dropZeroSigns hwidth).isGraded.rows i
    (by rwa [size_dropZeroSigns]) j (by rwa [size_dropZeroSigns])
  rw [row_dropZeroSigns, row_dropZeroSigns] at hgraded
  rw [← isDominatedFromAbove_map_dropZeroSign, ← dominates_map_dropZeroSign]
  obtain ⟨y, b, hb⟩ := List.exists_cons_of_ne_nil (h.row_ne_nil hwidth i hi)
  obtain ⟨x, a, ha⟩ := List.exists_cons_of_ne_nil (h.row_ne_nil hwidth j hj)
  have hy : y.IsFinite := h.isFinite i hi y (by rw [hb]; exact List.mem_cons_self)
  have hx : x.IsFinite := h.isFinite j hj x (by rw [ha]; exact List.mem_cons_self)
  rw [hb, ha] at hle hgraded ⊢
  refine Maxima.isDominatedFromAbove_eq_dominates hgraded ?_
  rw [isLessWithin_dropZeroSign, Bool.eq_false_iff]
  intro hless
  have hlt := grade_lt_of_isLessWithin hy hx hless
  refine absurd (grade_le_of_orderKey_le ?_) (Int.not_le_of_gt hlt)
  show x.orderKey ≤ y.orderKey
  have hfirst : (compare x.orderKey y.orderKey).isLE = true := by
    rw [lexDescending] at hle
    exact Ordering.isLE_left_of_isLE_then hle
  exact Std.isLE_compare.1 hfirst

/-- A candidate that is not sorted behind one it dominates precedes it: rows at the same
place in the order are the same row, which does not dominate itself. -/
theorem precedes_of_dominates (h : m.IsSpaced) (hwidth : 0 < m.width) {i j : Nat}
    (hij : m.Dominates i j) (hle : (lexDescending (m.row i) (m.row j)).isLE = true) :
    lexDescending (m.row i) (m.row j) = .lt := by
  obtain ⟨hi, hj, hdom⟩ := hij
  cases hcmp : lexDescending (m.row i) (m.row j) with
  | lt => rfl
  | gt =>
    rw [hcmp] at hle
    exact absurd hle Bool.false_ne_true
  | eq =>
    rw [h.lexDescending_eq hi hj] at hcmp
    have hsame : m.row j = m.row i :=
      List.map_injective_iff.2 (fun _ _ => orderKey_injective)
        (Std.LawfulEqCmp.eq_of_compare hcmp)
    rw [hsame] at hdom
    exact absurd ⟨hi, hi, hdom⟩ ((h.isStrictOn_dominates hwidth).irrefl i (List.mem_range.2 hi))

/-- **Divide and conquer finds the front** of dominance by a candidate that
precedes. -/
theorem isFrontOf_kung (h : m.IsSpaced) (hwidth : 0 < m.width) {xs : List Nat}
    (hxs : xs ⊆ List.range m.size) :
    IsFrontOf m.DominatesFromAbove xs (Maxima.kung m.row xs) := by
  have hlt {i : Nat} (hi : i ∈ xs) : i < m.size := List.mem_range.1 (hxs hi)
  have hperm : (Maxima.descending m.row xs).Perm xs := stableSort_perm _ xs
  have hsorted := Maxima.pairwise_descending fun i (hi : i ∈ xs) j (hj : j ∈ xs) =>
    h.lexDescending_eq (hlt hi) (hlt hj)
  refine (Maxima.isFrontOf_ofSorted m.row ((h.isStrictOn_dominatesFromAbove hwidth).mono
    (List.Subset.trans hperm.subset hxs)) ?_).of_perm hperm
  refine hsorted.imp_of_mem fun {i j} hi hj hle => ?_
  have hi := hlt (hperm.subset hi)
  have hj := hlt (hperm.subset hj)
  rw [h.isDominatedFromAbove_eq hwidth hi hj hle]
  refine ⟨?_, fun hdom => ?_, fun hdom => hdom.1.2.2⟩
  · rintro ⟨-, hbefore⟩
    rw [h.lexDescending_eq hj hi] at hbefore
    rw [h.lexDescending_eq hi hj, @Std.OrientedCmp.eq_swap _ compare _ ((m.row j).map orderKey),
      hbefore] at hle
    exact Bool.false_ne_true hle
  · exact ⟨⟨hi, hj, hdom⟩, h.precedes_of_dominates hwidth ⟨hi, hj, hdom⟩ hle⟩

/-- **Divide and conquer ranks by dominance by a candidate that precedes.** -/
theorem isCanonical_kung (h : m.IsSpaced) (hwidth : 0 < m.width) :
    (RankedFronts.ofPeeling (Maxima.kung m.row) m.size).IsCanonical m.DominatesFromAbove := by
  have hD : ∀ i j, m.DominatesFromAbove i j → i < m.size ∧ j < m.size :=
    fun i j hij => ⟨hij.1.1, hij.1.2.1⟩
  refine IsLayered.isCanonical hD ?_ ?_
  · exact (h.isStrictOn_dominatesFromAbove hwidth).acyclic fun i j hij =>
      ⟨List.mem_range.2 (hD i j hij).1, List.mem_range.2 (hD i j hij).2⟩
  · refine isLayered_peel (fun i j hij => (hD i j hij).1)
      (fun xs hxs => h.isFrontOf_kung hwidth hxs) List.nodup_range fun i => ?_
    rw [List.mem_range]
    exact (and_iff_left List.not_mem_nil).symm

/-- Without objectives nobody dominates anybody. -/
theorem not_dominates (h : m.IsSpaced) (hwidth : m.width = 0) (i j : Nat) :
    ¬ m.Dominates i j := by
  rintro ⟨hi, hj, hij⟩
  rw [List.length_eq_zero_iff.1 ((h.length_eq i hi).trans hwidth),
    List.length_eq_zero_iff.1 ((h.length_eq j hj).trans hwidth)] at hij
  exact absurd hij (by decide)

/-- **Counting dominators ranks the matrix by dominance**, which has no cycle. -/
theorem isRankedBy_pairwise (h : m.IsSpaced) : m.IsRankedBy grade .pairwise := by
  refine .inl ⟨rfl, ?_⟩
  obtain hwidth | hwidth := Nat.eq_zero_or_pos m.width
  · intro c hcc
    obtain ⟨d, -, hdc⟩ := Relation.TransGen.tail'_iff.1 hcc
    exact h.not_dominates hwidth d c hdc
  · exact (h.isStrictOn_dominates hwidth).acyclic fun _ _ hij =>
      ⟨List.mem_range.2 hij.1, List.mem_range.2 hij.2.1⟩

/-- **When divide and conquer ranks by dominance**: there has to be a dominator that
precedes wherever there is one. -/
theorem ascending_kung_eq_iff (h : m.IsSpaced) (hwidth : 0 < m.width) :
    (RankedFronts.ofPeeling (Maxima.kung m.row) m.size).ascending = m.rankWith .pairwise ↔
      ∀ j < m.size, ∀ k, (m.rankWith .pairwise).rank j = k + 1 →
        ∃ i, m.DominatesFromAbove i j ∧ (m.rankWith .pairwise).rank i = k := by
  have hcanonical := h.isCanonical_kung hwidth
  have hkung := hcanonical.isRanking
  obtain ⟨hpartition, hpairwise⟩ := h.isRankedBy_pairwise.isRanking
  constructor
  · intro heq j hj k hk
    rw [heq] at hkung
    obtain ⟨i, -, hij, hrank⟩ := hkung.exists_dominator j hj k hk
    exact ⟨i, hij, hrank⟩
  · intro habove
    -- then the ranks are the ranking by dominance by a candidate that precedes, too
    have hboth : IsRanking m.DominatesFromAbove m.size (m.rankWith .pairwise).rank :=
      { rank_lt := fun i hi j hj hij => hpairwise.rank_lt i hi j hj hij.1
        exists_dominator := fun j hj k hk => by
          obtain ⟨i, hij, hrank⟩ := habove j hj k hk
          exact ⟨i, hij.1.1, hij, hrank⟩ }
    exact RankedFronts.eq_of_rank_eq (RankedFronts.isPartition_ascending.2 hcanonical.isPartition)
      hpartition (Pairwise.size_pairwiseFronts m).symm fun j hj => hkung.eq_rank hboth hj

/-- Without objectives there is no zero to replace. -/
theorem dropZeroSigns_eq_self (h : m.IsSpaced) (hwidth : m.width = 0) : m.dropZeroSigns = m := by
  refine Array.ext (size_dropZeroSigns m) fun i hi' hi => ?_
  have hnil : m[i] = [] := by
    have hlen := h.length_eq i hi
    rwa [hwidth, List.length_eq_zero_iff, row, Array.getD_eq_getD_getElem?,
      Array.getElem?_eq_getElem hi] at hlen
  have hmap : m.dropZeroSigns[i] = m[i].map dropZeroSign := Array.getElem_map _ hi'
  rw [hmap, hnil, List.map_nil]

end IsSpaced

/-! ## Where the sign of zero matters -/

/-- **Where a ranking sees the sign of zero.** A strategy that does not divide and
conquer gives matrices that differ in the signs of zeros the same result. Divide and
conquer, on finite values that the tolerance does not confuse, ranks a matrix as
without negative zeros exactly if every candidate behind the first front has a
dominator of the front before that precedes it in the sorted order. -/
theorem checkedRank_zeroSigns (m : FitnessMatrix Binary64) (strategy : Strategy) :
    (strategy.finder m ≠ some .kung → ∀ m' : FitnessMatrix Binary64,
        m'.dropZeroSigns = m.dropZeroSigns → m'.checkedRank strategy = m.checkedRank strategy)
      ∧ (strategy.finder m = some .kung → m.IsSpaced →
        (m.checkedRank strategy = m.dropZeroSigns.checkedRank strategy ↔
          ∀ j < m.size, ∀ k, (m.rankWith .pairwise).rank j = k + 1 →
            ∃ i, m.DominatesFromAbove i j ∧ (m.rankWith .pairwise).rank i = k)) := by
  constructor
  · intro hfinder m' hsame
    have hfinder' : strategy.finder m' ≠ some .kung := by
      rwa [← finder_dropZeroSigns, hsame, finder_dropZeroSigns]
    rw [← checkedRank_dropZeroSigns hfinder', hsame, checkedRank_dropZeroSigns hfinder]
  · intro hfinder h
    obtain hwidth | hwidth := Nat.eq_zero_or_pos m.width
    · -- both sides hold: there is no zero to replace, and no dominator
      rw [h.dropZeroSigns_eq_self hwidth]
      refine iff_of_true rfl fun j hj k hk => ?_
      obtain ⟨i, -, hij, -⟩ := h.isRankedBy_pairwise.isRanking.2.exists_dominator j hj k hk
      exact absurd hij (h.not_dominates hwidth i j)
    · have hgraded := (h.isSeparated_dropZeroSigns hwidth).isGraded
      have hwithout : m.dropZeroSigns.rankWith strategy = m.rankWith .pairwise :=
        (hgraded.rankWith_eq strategy .pairwise).trans (rankWith_dropZeroSigns nofun)
      have hok : m.checkedRank strategy = .ok (m.rankWith strategy) :=
        checkedRank_eq_ok_of_isSelection (h.row_ne_nil hwidth) fun finder hkung xs _ =>
          isSelection_run (.inl (Option.some.inj (hkung.symm.trans hfinder))) m.row xs
      have hok' : m.dropZeroSigns.checkedRank strategy = .ok (m.rankWith .pairwise) := by
        rw [hgraded.checkedRank_eq_ok strategy, hwithout]
      have hkung : m.rankWith strategy
          = (RankedFronts.ofPeeling (Maxima.kung m.row) m.size).ascending := by
        unfold rankWith
        rw [hfinder]
        rfl
      rw [hok, hok', Except.ok.injEq, hkung]
      exact h.ascending_kung_eq_iff hwidth

end FitnessMatrix

/-- **Two rows with either zero.** The first one dominates the second: the zeros are
the same number, and its other value is larger. The second one precedes it. -/
def mixedZeros : FitnessMatrix Binary64 :=
  let three : Binary64 := ⟨0x4008000000000000⟩
  let five : Binary64 := ⟨0x4014000000000000⟩
  #[[.negZero, five], [0, three]]

/-- The two rows are among those that the theorem is about. -/
theorem isSpaced_mixedZeros : mixedZeros.IsSpaced where
  length_eq := by decide +kernel
  isFinite := by decide +kernel
  separated := by decide +kernel

/-- **Replacing one zero changes the fronts**: divide and conquer puts both rows into
the first front, and with a positive zero in place of the negative one only the row
that dominates the other. -/
theorem mixedZeros_kung_ne :
    mixedZeros.IsSpaced
      ∧ mixedZeros.dropZeroSigns.IsSpaced
      ∧ (∀ s ∈ [Strategy.kung, .auto],
        mixedZeros.checkedRank s = .ok ⟨2, [[0, 1]]⟩
          ∧ mixedZeros.dropZeroSigns.checkedRank s = .ok ⟨2, [[0], [1]]⟩)
      ∧ ∀ s ∈ [Strategy.pairwise, .best], mixedZeros.checkedRank s = .ok ⟨2, [[0], [1]]⟩ := by
  refine ⟨isSpaced_mixedZeros, ⟨by decide +kernel, by decide +kernel, by decide +kernel⟩, ?_, ?_⟩
  · decide +kernel
  · decide +kernel

/-- Elimination gives the two rows the same result with either zero. Divide and conquer
does not, so the condition must fail of them: the first row does not precede the
second. -/
theorem mixedZeros_checkedRank :
    mixedZeros.dropZeroSigns.checkedRank .best = mixedZeros.checkedRank .best
      ∧ mixedZeros.IsSpaced
      ∧ ¬ ∀ j < mixedZeros.size, ∀ k, (mixedZeros.rankWith .pairwise).rank j = k + 1 →
          ∃ i, mixedZeros.DominatesFromAbove i j
            ∧ (mixedZeros.rankWith .pairwise).rank i = k := by
  refine ⟨?_, isSpaced_mixedZeros, fun hall => ?_⟩
  · exact (FitnessMatrix.checkedRank_zeroSigns mixedZeros .best).1 (by decide) _
      (FitnessMatrix.dropZeroSigns_dropZeroSigns mixedZeros)
  · have heq := ((FitnessMatrix.checkedRank_zeroSigns mixedZeros .kung).2 rfl
      isSpaced_mixedZeros).2 hall
    exact absurd heq (by decide +kernel)

end ParetoSelection
