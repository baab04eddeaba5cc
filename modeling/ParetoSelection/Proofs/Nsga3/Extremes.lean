import ParetoSelection.Proofs.Binary64.Order
import ParetoSelection.Proofs.Nsga3.Estimates

/-!
# The extreme points of a generation

The extreme point of an axis is found by going through the rows of the generation and then
the extreme points so far, and keeping the first row with the lowest score. That this is the
first row which attains the minimum (`IsFirstLowest`) takes scores that can be compared, and
scores can: a scalarized distance is the largest of some quotients and negative infinity,
and the larger of two numbers passes over what is no number, so the distance is a number
whatever the values of the row are (`isNumber_scalarization`). All axes are given the same
rows and the ideal point that these rows have already moved.

The nadir passes over values that are no number, too: on every axis it is a coordinate of an
extreme point, and not above any that is a number (`lowerCorner_le`).
-/

namespace ParetoSelection

namespace Estimates

/-! ## The first of the lowest -/

/-- **The first row with the lowest score** in a list of rows. -/
structure IsFirstLowest {α : Type} [Scalar α] (score : List α → α) (rows : List (List α))
    (p : List α) : Prop where
  /-- No row has a lower score. -/
  le : ∀ row ∈ rows, score p ≤ score row
  /-- It is one of the rows, and all rows before it have higher scores. -/
  first : ∃ before after, rows = before ++ p :: after ∧ ∀ row ∈ before, score p < score row

section Keyed

variable {α κ : Type} [Scalar α] [LinearOrder κ] {key : α → κ} {known : α → Prop}

/-- A row alone has the lowest score. -/
theorem isFirstLowest_singleton (hkeyed : IsKeyed key known) {score : List α → α}
    (hscore : ∀ row, known (score row)) (row : List α) : IsFirstLowest score [row] row := by
  refine ⟨fun other hother => ?_, [], [], rfl, fun other hother => absurd hother List.not_mem_nil⟩
  rw [List.mem_singleton.1 hother]
  exact (hkeyed.le_iff (hscore row) (hscore row)).2 le_rfl

/-- **One more row** takes the place of the lowest if its score is lower. -/
theorem IsFirstLowest.concat (hkeyed : IsKeyed key known) {score : List α → α}
    (hscore : ∀ row, known (score row)) {rows : List (List α)} {best : List α}
    (h : IsFirstLowest score rows best) (row : List α) :
    IsFirstLowest score (rows ++ [row]) (if score row < score best then row else best) := by
  have hlt_iff {a b : List α} : score a < score b ↔ key (score a) < key (score b) :=
    hkeyed.lt_iff (hscore a) (hscore b)
  have hle_iff {a b : List α} : score a ≤ score b ↔ key (score a) ≤ key (score b) :=
    hkeyed.le_iff (hscore a) (hscore b)
  split
  · rename_i hlower
    have hbelow {other : List α} (hother : other ∈ rows) : score row < score other := by
      have hle := h.le other hother
      rw [hle_iff] at hle
      rw [hlt_iff] at hlower ⊢
      exact lt_of_lt_of_le hlower hle
    refine ⟨fun other hother => ?_, rows, [], rfl, fun other => hbelow⟩
    rw [hle_iff]
    obtain hother | hother := List.mem_append.1 hother
    · exact le_of_lt (hlt_iff.1 (hbelow hother))
    · rw [List.mem_singleton.1 hother]
  · rename_i hnot
    obtain ⟨before, after, hrows, hbefore⟩ := h.first
    refine ⟨fun other hother => ?_, before, after ++ [row], by rw [hrows]; simp, hbefore⟩
    obtain hother | hother := List.mem_append.1 hother
    · exact h.le other hother
    · rw [List.mem_singleton.1 hother, hle_iff]
      exact not_lt.1 (mt hlt_iff.2 hnot)

/-- **One pass finds the first row with the lowest score**, if scores can be compared. -/
theorem isFirstLowest_firstLowest (hkeyed : IsKeyed key known) {score : List α → α}
    (hscore : ∀ row, known (score row)) (first : List α) (rest : List (List α)) :
    IsFirstLowest score (first :: rest) (firstLowest score first rest) := by
  induction rest using List.reverseRecOn with
  | nil => exact isFirstLowest_singleton hkeyed hscore first
  | append_singleton rest row ih =>
    have hstep : firstLowest score first (rest ++ [row])
        = if score row < score (firstLowest score first rest) then row
          else firstLowest score first rest := by
      unfold firstLowest
      rw [List.foldl_concat]
    rw [hstep, ← List.cons_append]
    exact ih.concat hkeyed hscore row

end Keyed

/-! ## On binary64 patterns -/

/-- The larger of a number and anything is a number. -/
theorem isNumber_foldl_maxNum {x : Binary64} (hx : x.IsNumber) (ys : List Binary64) :
    (ys.foldl Scalar.maxNum x).IsNumber := by
  induction ys generalizing x with
  | nil => exact hx
  | cons y ys ih =>
    rw [List.foldl_cons]
    refine ih ?_
    rw [Scalar.maxNum, Binary64.isKeyed_grade.bne_self hx, Bool.or_false]
    split
    · rename_i hlt
      exact (Binary64.isNumber_of_lt (of_decide_eq_true hlt)).2
    · exact hx

/-- **A scalarized distance is a number**, whatever the row is. -/
theorem isNumber_scalarization (ideal weights row : List Binary64) :
    (scalarization ideal weights row).IsNumber :=
  isNumber_foldl_maxNum (by decide) _

/-- **On every axis the lower corner has a coordinate of a point**, and one that is not
above any number among them. -/
theorem lowerCorner_le {points : List (List Binary64)} {dim k : Nat} (hne : points ≠ [])
    (h : ∀ p ∈ points, p.length = dim) (hk : k < dim) :
    (∃ p ∈ points, p.getD k 0 = (lowerCorner points).getD k 0)
      ∧ ∀ p ∈ points, (p.getD k 0).isNaN = false →
        (lowerCorner points).getD k 0 ≤ p.getD k 0 := by
  obtain ⟨first, rest, rfl⟩ := List.exists_cons_of_ne_nil hne
  simp only [Binary64.isNaN_eq_false_iff]
  -- by induction from the right: the corner of the points so far, and one more
  induction rest using List.reverseRecOn with
  | nil =>
    refine ⟨⟨first, List.mem_singleton_self first, rfl⟩, fun p hp hnumber => ?_⟩
    rw [List.mem_singleton.1 hp] at hnumber ⊢
    exact (Binary64.le_iff hnumber hnumber).2 (Int.le_refl _)
  | append_singleton rest q ih =>
    rw [← List.cons_append] at h ⊢
    have hbefore : ∀ p ∈ first :: rest, p.length = dim := fun p hp =>
      h p (List.mem_append_left _ hp)
    have hq : q.length = dim := h q (List.mem_append_right _ (List.mem_singleton_self q))
    have hlen := length_lowerCorner (List.cons_ne_nil first rest) hbefore
    have hcorner : (lowerCorner (first :: rest ++ [q])).getD k 0
        = Scalar.minNum ((lowerCorner (first :: rest)).getD k 0) (q.getD k 0) := by
      rw [← getD_zipWith (f := Scalar.minNum) (by rwa [hlen]) (by rwa [hq])]
      exact congrArg (List.getD · k 0) (List.foldl_concat _ _ _ _)
    obtain ⟨⟨p, hp, heq⟩, hle⟩ := ih (List.cons_ne_nil first rest) hbefore
    rw [hcorner]
    refine ⟨?_, fun r hr hnumber => ?_⟩
    · unfold Scalar.minNum
      split
      · exact ⟨q, List.mem_append_right _ (List.mem_singleton_self q), rfl⟩
      · exact ⟨p, List.mem_append_left _ hp, heq⟩
    · obtain hr | hr := List.mem_append.1 hr
      · have hr := hle r hr hnumber
        exact Binary64.le_of_le_of_le
          (Binary64.minNum_le_left (Binary64.isNumber_of_le hr).1 _) hr
      · rw [List.mem_singleton.1 hr] at hnumber ⊢
        exact Binary64.minNum_le_right _ hnumber

/-- **What a generation makes of the extreme points and the nadir.** There is an extreme
point for every objective: of the rows of the generation and then all extreme points
before, it is the first with the lowest scalarized distance to the ideal point, which the
rows have moved by then. On every axis the nadir has a coordinate of one of the new extreme
points, and one that is not above any of theirs that is a number. -/
theorem isFirstLowest_extremes_update {e : Estimates Binary64} {m : FitnessMatrix Binary64}
    {dim : Nat} (hideal : e.ideal.length = dim) (hextremes : ∀ p ∈ e.extremes, p.length = dim)
    (hne : 0 < m.size) (hrows : ∀ row ∈ m, row.length = dim) :
    (e.update m).ideal = componentMax e.ideal (upperCorner m.toList)
      ∧ (e.update m).extremes.length = dim
      ∧ (∀ axis < dim, IsFirstLowest
          (scalarization (e.update m).ideal (axisWeights dim axis)) (m.toList ++ e.extremes)
          ((e.update m).extremes.getD axis []))
      ∧ ∀ k < dim,
          (∃ p ∈ (e.update m).extremes, p.getD k 0 = (e.update m).nadir.getD k 0)
          ∧ ∀ p ∈ (e.update m).extremes, (p.getD k 0).isNaN = false →
            (e.update m).nadir.getD k 0 ≤ p.getD k 0 := by
  have hlen := Nsga3.length_ideal_update hideal hne hrows
  have hcount := length_extremes_update hideal hne hrows
  refine ⟨rfl, hcount, fun axis haxis => ?_, fun k hk => ?_⟩
  · obtain ⟨first, rest, hfirst⟩ := List.exists_cons_of_ne_nil
      (List.append_ne_nil_of_left_ne_nil (List.length_pos_iff.1 hne) e.extremes)
    have hpoint : (e.update m).extremes.getD axis []
        = extremePoint (e.update m).ideal axis (m.toList ++ e.extremes) := by
      rw [List.getD_eq_getElem _ _ (by rwa [hcount])]
      refine (List.getElem_map _).trans ?_
      rw [List.getElem_range]
      rfl
    rw [hpoint, hfirst, extremePoint, hlen]
    exact isFirstLowest_firstLowest Binary64.isKeyed_grade
      (fun row => isNumber_scalarization _ _ row) first rest
  · refine lowerCorner_le (List.ne_nil_of_length_pos ?_)
      (length_of_mem_extremes_update hextremes hne hrows) hk
    exact Nat.lt_of_lt_of_eq (Nat.zero_lt_of_lt hk) hcount.symm

/-- Estimates of two objectives, and a generation with a row that is listed twice. -/
def drifting : Estimates Binary64 × FitnessMatrix Binary64 :=
  let row (a b : Nat) : List Binary64 := [Scalar.ofNat a, Scalar.ofNat b]
  (⟨row 4 4, row 0 0, [row 0 4, row 4 0]⟩, #[row 3 3, row 5 1, row 5 1])

/-- The first extreme point stays, the second one is a row of the generation. -/
theorem drifting_extremes_update :
    let (e, m) := drifting
    (e.update m).extremes = [[Scalar.ofNat 0, Scalar.ofNat 4], [Scalar.ofNat 5, Scalar.ofNat 1]]
      ∧ (e.update m).nadir = [Scalar.ofNat 0, Scalar.ofNat 1]
      ∧ IsFirstLowest (scalarization [Scalar.ofNat 5, Scalar.ofNat 4] (axisWeights 2 1))
          (m.toList ++ e.extremes) [Scalar.ofNat 5, Scalar.ofNat 1] := by
  have hextremes : (drifting.1.update drifting.2).extremes
      = [[Scalar.ofNat 0, Scalar.ofNat 4], [Scalar.ofNat 5, Scalar.ofNat 1]] := by
    decide +kernel
  have hideal : (drifting.1.update drifting.2).ideal = [Scalar.ofNat 5, Scalar.ofNat 4] := by
    decide +kernel
  have hlen : drifting.1.ideal.length = 2 := rfl
  obtain ⟨-, -, hfirst, -⟩ := isFirstLowest_extremes_update (m := drifting.2) hlen (by decide)
    (by decide) (by decide)
  have hsecond := hfirst 1 Nat.one_lt_two
  rw [hextremes, hideal] at hsecond
  exact ⟨hextremes, by decide +kernel, hsecond⟩

end Estimates

end ParetoSelection
