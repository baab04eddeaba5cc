import Mathlib.Order.ConditionallyCompleteLattice.Indexed
import ParetoSelection.Proofs.Crowding.Places
import ParetoSelection.Proofs.Exact.Arithmetic

/-!
# The crowding distance in exact arithmetic

What the passes compute is described by who comes before whom, objective by objective
(`ComesBefore`), and not by the order in which members are visited. A member of a front of
three or more is infinitely isolated if in some objective nobody comes before it or nobody
after it (`IsExtreme`), whatever the other objectives add: infinity stays infinity. In every
objective any other member has a nearest one on both sides (`IsBetween`), and its distance is
the sum of the gaps between the two, each as a part of the whole range; an objective in which
all values are equal has no range and adds nothing. As a gap is never more than the range, the
distance is at most the number of objectives (`isDistance_crowdingPasses`).
-/

namespace ParetoSelection

namespace Crowding

variable {n : ℕ}

/-! ## First, last and in between -/

/-- **A member is extreme** if nobody comes before it, or nobody after it. -/
def IsExtreme (v : Fin n → ℝ) (p : Fin n) : Prop :=
  (∀ q, ¬ ComesBefore v q p) ∨ ∀ q, ¬ ComesBefore v p q

/-- **The neighbours of a member**: the last of those that come before it, and the first of
those that come after it. -/
structure IsBetween (v : Fin n → ℝ) (before p after : Fin n) : Prop where
  /-- One neighbour comes before the member. -/
  before_comes : ComesBefore v before p
  /-- Whoever else does comes before the neighbour. -/
  before_last : ∀ q, ComesBefore v q p → q = before ∨ ComesBefore v q before
  /-- The other neighbour comes after the member. -/
  after_comes : ComesBefore v p after
  /-- Whoever else does comes after the neighbour. -/
  after_first : ∀ q, ComesBefore v p q → q = after ∨ ComesBefore v after q

/-- **The range** of the values. -/
noncomputable def spread (v : Fin n → ℝ) : ℝ :=
  (⨆ p, v p) - ⨅ p, v p

/-- **A crowding distance**: infinite for the members that are extreme in an objective, and for
the others the sum of the gaps between their neighbours, in parts of the range, over the
objectives that have one. -/
structure IsDistance (objectives : ℕ) (v : ℕ → Fin n → ℝ) (p : Fin n) (d : EReal) : Prop where
  /-- Members that are extreme are infinitely isolated, and no others. -/
  eq_top_iff : d = ⊤ ↔ ∃ k < objectives, IsExtreme (v k) p
  /-- The distance of the others is a sum of gaps. -/
  eq_sum : (∀ k < objectives, ¬ IsExtreme (v k) p) →
    ∃ before after : ℕ → Fin n,
      (∀ k < objectives, IsBetween (v k) (before k) p (after k))
      ∧ d = ((∑ k ∈ Finset.range objectives with 0 < spread (v k),
          (v k (after k) - v k (before k)) / spread (v k) : ℝ) : EReal)
  /-- It is not below zero, and every objective adds one at most. -/
  bounds : (∀ k < objectives, ¬ IsExtreme (v k) p) → 0 ≤ d ∧ d ≤ (objectives : ℝ)

/-! ## Places of real values -/

/-- Real values, listed. -/
noncomputable def listed (v : Fin n → ℝ) : List EReal :=
  List.ofFn fun p => (v p : EReal)

section Places

variable (v : Fin n → ℝ) {p q r : Fin n}

@[simp]
theorem length_listed : (listed v).length = n :=
  List.length_ofFn

/-- The value of a member. -/
theorem getD_listed (p : Fin n) : (listed v).toArray.getD p 0 = v p := by
  have hp : (p : ℕ) < (listed v).length := (length_listed v).symm ▸ p.2
  rw [getD_toArray, List.getD_eq_getElem _ _ hp]
  exact List.getElem_ofFn hp

variable {v}

/-- **Who comes first has the lower place.** -/
theorem comesBefore_iff_placeOf_lt :
    ComesBefore v p q ↔ placeOf (listed v) p < placeOf (listed v) q := by
  have hlt (p : Fin n) : (p : ℕ) < (listed v).length := (length_listed v).symm ▸ p.2
  rw [← comesBefore_iff Exact.isTotalBy_id (hlt p) (hlt q)]
  show _ ↔ (listed v).toArray.getD p 0 < (listed v).toArray.getD q 0
    ∨ (listed v).toArray.getD p 0 = (listed v).toArray.getD q 0 ∧ (p : ℕ) < q
  rw [getD_listed, getD_listed, EReal.coe_lt_coe_iff, EReal.coe_eq_coe_iff]
  rfl

/-- Places are below the number of members. -/
theorem placeOf_listed_lt (v : Fin n → ℝ) (p : Fin n) : placeOf (listed v) p < n :=
  (placeOf_lt ((length_listed v).symm ▸ p.2)).trans_eq (length_listed v)

/-- Every place is somebody's, whose value is the one there. -/
theorem exists_placeOf_eq (v : Fin n → ℝ) {place : ℕ} (h : place < n) :
    ∃ q : Fin n, placeOf (listed v) q = place := by
  have hplace : place < (listed v).length := (length_listed v).symm ▸ h
  exact ⟨⟨visitedAt (listed v) place, (visitedAt_lt hplace).trans_eq (length_listed v)⟩,
    placeOf_visitedAt hplace⟩

/-- Nobody shares a place. -/
theorem eq_of_placeOf_eq (h : placeOf (listed v) p = placeOf (listed v) q) : p = q := by
  have hvisited (p : Fin n) : visitedAt (listed v) (placeOf (listed v) p) = p :=
    visitedAt_placeOf ((length_listed v).symm ▸ p.2)
  exact Fin.ext ((hvisited p).symm.trans ((congrArg _ h).trans (hvisited q)))

/-- The value at a member's place. -/
theorem getD_sortedValues_listed (v : Fin n → ℝ) (p : Fin n) :
    (sortedValues (listed v)).getD (placeOf (listed v) p) 0 = v p :=
  (getD_sortedValues_placeOf ((length_listed v).symm ▸ p.2)).trans (getD_listed v p)

/-- Values ascend with the places. -/
theorem le_of_placeOf_le (h : placeOf (listed v) p ≤ placeOf (listed v) q) : v p ≤ v q := by
  obtain hlt | heq := Nat.lt_or_eq_of_le h
  · exact (comesBefore_iff_placeOf_lt.2 hlt).elim le_of_lt fun h => le_of_eq h.1
  · exact le_of_eq (congrArg v (eq_of_placeOf_eq heq))

/-- **The extreme members** have the first and the last place. -/
theorem isExtreme_iff :
    IsExtreme v p ↔ placeOf (listed v) p = 0 ∨ placeOf (listed v) p = n - 1 := by
  have hp := placeOf_listed_lt v p
  unfold IsExtreme
  simp only [comesBefore_iff_placeOf_lt]
  refine or_congr ⟨fun h => ?_, fun h q => ?_⟩ ⟨fun h => ?_, fun h q => ?_⟩
  · obtain ⟨q, hq⟩ := exists_placeOf_eq v (Nat.zero_lt_of_lt hp)
    have hq' := h q
    omega
  · omega
  · obtain ⟨q, hq⟩ := exists_placeOf_eq v (Nat.sub_one_lt_of_lt hp)
    have hq' := h q
    omega
  · have hq := placeOf_listed_lt v q
    omega

/-- **The neighbours of a member** have the places next to it. -/
theorem isBetween_of_placeOf (hq : placeOf (listed v) q + 1 = placeOf (listed v) p)
    (hr : placeOf (listed v) r = placeOf (listed v) p + 1) : IsBetween v q p r where
  before_comes := comesBefore_iff_placeOf_lt.2 (by omega)
  before_last x hx := by
    rw [comesBefore_iff_placeOf_lt] at hx ⊢
    have hle : placeOf (listed v) x ≤ placeOf (listed v) q := by omega
    exact (Nat.lt_or_eq_of_le hle).symm.imp_left eq_of_placeOf_eq
  after_comes := comesBefore_iff_placeOf_lt.2 (by omega)
  after_first x hx := by
    rw [comesBefore_iff_placeOf_lt] at hx ⊢
    exact (Nat.eq_or_lt_of_le (by omega : placeOf (listed v) r ≤ placeOf (listed v) x)).imp_left
      fun h => eq_of_placeOf_eq h.symm

/-- **The range** goes from the first to the last value. -/
theorem spread_eq {first last : Fin n} (hfirst : placeOf (listed v) first = 0)
    (hlast : placeOf (listed v) last = n - 1) : v last - v first = spread v := by
  have hgreatest : IsGreatest (Set.range v) (v last) := by
    refine ⟨⟨last, rfl⟩, fun x hx => ?_⟩
    obtain ⟨p, rfl⟩ := hx
    have hp := placeOf_listed_lt v p
    exact le_of_placeOf_le (by omega)
  have hleast : IsLeast (Set.range v) (v first) := by
    refine ⟨⟨first, rfl⟩, fun x hx => ?_⟩
    obtain ⟨p, rfl⟩ := hx
    exact le_of_placeOf_le (by omega)
  unfold spread
  rw [iSup, iInf, hgreatest.csSup_eq, hleast.csInf_eq]

end Places

/-! ## One objective -/

section Objective

variable {v : Fin n → ℝ} {p before after : Fin n}

/-- **The gap between two values**, as a part of the range if there is one. -/
noncomputable def gapPart (v : Fin n → ℝ) (before after : Fin n) : ℝ :=
  if 0 < spread v then (v after - v before) / spread v else 0

/-- An extreme member becomes infinitely isolated. -/
theorem extend_of_isExtreme (h : IsExtreme v p) (d : EReal) :
    extend (sortedValues (listed v)) (placeOf (listed v) p) d = ⊤ := by
  rw [extend_sortedValues, length_listed]
  exact if_pos (isExtreme_iff.1 h)

/-- What an objective makes of the distance of a member whose gap is `part`: it is added, and
infinity stays. -/
def Extends (v : Fin n → ℝ) (p : Fin n) (part : ℝ) : Prop :=
  (∀ d : ℝ, extend (sortedValues (listed v)) (placeOf (listed v) p) d
      = ((d + part : ℝ) : EReal))
    ∧ extend (sortedValues (listed v)) (placeOf (listed v) p) ⊤ = ⊤

/-- **Between two neighbours** the gap is added. -/
theorem extends_of_placeOf (hbefore : placeOf (listed v) before + 1 = placeOf (listed v) p)
    (hafter : placeOf (listed v) after = placeOf (listed v) p + 1) :
    Extends v p (gapPart v before after) := by
  have hlt := placeOf_listed_lt v after
  obtain ⟨first, hfirst⟩ := exists_placeOf_eq v (Nat.zero_lt_of_lt hlt)
  obtain ⟨last, hlast⟩ := exists_placeOf_eq v (Nat.sub_one_lt_of_lt hlt)
  have hrange : (sortedValues (listed v)).getD (n - 1) 0 - (sortedValues (listed v)).getD 0 0
      = ((spread v : ℝ) : EReal) := by
    rw [← spread_eq hfirst hlast, EReal.coe_sub, ← getD_sortedValues_listed v first,
      ← getD_sortedValues_listed v last, hfirst, hlast]
  have hgap : (sortedValues (listed v)).getD (placeOf (listed v) p + 1) 0
        - (sortedValues (listed v)).getD (placeOf (listed v) p - 1) 0
      = ((v after - v before : ℝ) : EReal) := by
    rw [EReal.coe_sub, ← getD_sortedValues_listed v before, ← getD_sortedValues_listed v after,
      hafter, ← hbefore]
    rfl
  have hinner : ¬ (placeOf (listed v) p = 0 ∨ placeOf (listed v) p = n - 1) := by omega
  unfold gapPart
  by_cases hpos : 0 < spread v
  · have hextend (d : EReal) : extend (sortedValues (listed v)) (placeOf (listed v) p) d
        = d + (((v after - v before) / spread v : ℝ) : EReal) := by
      rw [extend_sortedValues, length_listed, if_neg hinner, hrange, hgap,
        if_pos (EReal.coe_pos.2 hpos), EReal.coe_div]
    rw [if_pos hpos]
    exact ⟨fun d => (hextend d).trans (EReal.coe_add _ _).symm,
      (hextend ⊤).trans (EReal.top_add_coe _)⟩
  · have hextend (d : EReal) : extend (sortedValues (listed v)) (placeOf (listed v) p) d = d := by
      rw [extend_sortedValues, length_listed, if_neg hinner, hrange,
        if_neg (mt EReal.coe_pos.1 hpos)]
    rw [if_neg hpos]
    exact ⟨fun d => by rw [hextend, add_zero], hextend ⊤⟩

/-- **Who is not extreme has neighbours**, and its distance grows by their gap. -/
theorem exists_extends (h : ¬ IsExtreme v p) :
    ∃ before after, IsBetween v before p after ∧ Extends v p (gapPart v before after) := by
  have hp := placeOf_listed_lt v p
  rw [isExtreme_iff, not_or] at h
  obtain ⟨before, hbefore⟩ := exists_placeOf_eq v (by omega : placeOf (listed v) p - 1 < n)
  obtain ⟨after, hafter⟩ := exists_placeOf_eq v (by omega : placeOf (listed v) p + 1 < n)
  have hbefore' : placeOf (listed v) before + 1 = placeOf (listed v) p := by omega
  exact ⟨before, after, isBetween_of_placeOf hbefore' hafter, extends_of_placeOf hbefore' hafter⟩

/-- A gap is a part of the range. -/
theorem gapPart_mem_Icc (h : IsBetween v before p after) :
    0 ≤ gapPart v before after ∧ gapPart v before after ≤ 1 := by
  unfold gapPart
  split
  · rename_i hpos
    have hle {q r : Fin n} (hqr : ComesBefore v q r) : v q ≤ v r :=
      hqr.elim le_of_lt fun h => le_of_eq h.1
    have hgap : v before ≤ v after := (hle h.before_comes).trans (hle h.after_comes)
    have hhigh : v after ≤ ⨆ q, v q := le_ciSup (Set.finite_range v).bddAbove after
    have hlow : ⨅ q, v q ≤ v before := ciInf_le (Set.finite_range v).bddBelow before
    refine ⟨div_nonneg (sub_nonneg.2 hgap) hpos.le, (div_le_one hpos).2 ?_⟩
    exact sub_le_sub hhigh hlow
  · exact ⟨le_rfl, zero_le_one⟩

end Objective

/-! ## All objectives -/

section Objectives

variable (v : ℕ → Fin n → ℝ) (p : Fin n)

/-- The distance of a member after some objectives. -/
noncomputable def distanceAfter (objectives : ℕ) : EReal :=
  (List.range objectives).foldl
    (fun d k => extend (sortedValues (listed (v k))) (placeOf (listed (v k)) p) d) 0

/-- One more objective. -/
theorem distanceAfter_succ (k : ℕ) : distanceAfter v p (k + 1)
    = extend (sortedValues (listed (v k))) (placeOf (listed (v k)) p) (distanceAfter v p k) := by
  unfold distanceAfter
  rw [List.range_succ, List.foldl_concat]

variable {v p} {objectives : ℕ}

/-- **Infinity stays**, whatever is added later. -/
theorem distanceAfter_of_isExtreme (h : ∃ k < objectives, IsExtreme (v k) p) :
    distanceAfter v p objectives = ⊤ := by
  induction objectives with
  | zero =>
    obtain ⟨k, hk, -⟩ := h
    exact absurd hk (Nat.not_lt_zero k)
  | succ objectives ih =>
    rw [distanceAfter_succ]
    by_cases hlast : IsExtreme (v objectives) p
    · exact extend_of_isExtreme hlast _
    · obtain ⟨k, hk, hextreme⟩ := h
      have hlt : k < objectives := by
        refine lt_of_le_of_ne (Nat.le_of_lt_succ hk) fun heq => hlast ?_
        rwa [← heq]
      obtain ⟨before, after, -, hextends⟩ := exists_extends hlast
      rw [ih ⟨k, hlt, hextreme⟩, hextends.2]

/-- **Otherwise the gaps add up.** -/
theorem distanceAfter_eq_sum {before after : ℕ → Fin n}
    (h : ∀ k < objectives, Extends (v k) p (gapPart (v k) (before k) (after k))) :
    distanceAfter v p objectives
      = ((∑ k ∈ Finset.range objectives, gapPart (v k) (before k) (after k) : ℝ) : EReal) := by
  induction objectives with
  | zero => exact EReal.coe_zero.symm
  | succ objectives ih =>
    rw [distanceAfter_succ, ih fun k hk => h k (Nat.lt_succ_of_lt hk),
      (h objectives (Nat.lt_succ_self _)).1, Finset.sum_range_succ]

/-- **What is added up is the crowding distance.** -/
theorem isDistance_distanceAfter (v : ℕ → Fin n → ℝ) (p : Fin n) (objectives : ℕ) :
    IsDistance objectives v p (distanceAfter v p objectives) := by
  have hsum (hinner : ∀ k < objectives, ¬ IsExtreme (v k) p) : ∃ before after : ℕ → Fin n,
      (∀ k < objectives, IsBetween (v k) (before k) p (after k))
      ∧ distanceAfter v p objectives
        = ((∑ k ∈ Finset.range objectives, gapPart (v k) (before k) (after k) : ℝ) : EReal) := by
    have hneighbours (k : ℕ) : ∃ before after, k < objectives →
        IsBetween (v k) before p after ∧ Extends (v k) p (gapPart (v k) before after) := by
      by_cases hk : k < objectives
      · obtain ⟨before, after, hbetween⟩ := exists_extends (hinner k hk)
        exact ⟨before, after, fun _ => hbetween⟩
      · exact ⟨p, p, fun h => absurd h hk⟩
    choose before after h using hneighbours
    exact ⟨before, after, fun k hk => (h k hk).1, distanceAfter_eq_sum fun k hk => (h k hk).2⟩
  refine ⟨⟨fun htop => ?_, distanceAfter_of_isExtreme⟩, fun hinner => ?_, fun hinner => ?_⟩
  · by_contra hinner
    push Not at hinner
    obtain ⟨before, after, -, heq⟩ := hsum hinner
    exact EReal.coe_ne_top _ (heq.symm.trans htop)
  · obtain ⟨before, after, hbetween, heq⟩ := hsum hinner
    refine ⟨before, after, hbetween, heq.trans (congrArg _ ?_)⟩
    exact (Finset.sum_filter _ _).symm
  · obtain ⟨before, after, hbetween, heq⟩ := hsum hinner
    have hpart (k : ℕ) (hk : k ∈ Finset.range objectives) :=
      gapPart_mem_Icc (hbetween k (Finset.mem_range.1 hk))
    rw [heq, EReal.coe_nonneg, EReal.coe_le_coe_iff]
    refine ⟨Finset.sum_nonneg fun k hk => (hpart k hk).1, ?_⟩
    refine (Finset.sum_le_card_nsmul _ _ 1 fun k hk => (hpart k hk).2).trans ?_
    rw [Finset.card_range, nsmul_one]

end Objectives

end Crowding

/-! ## Fronts -/

namespace FitnessMatrix

variable {m : FitnessMatrix EReal} {front : List ℕ}

/-- The values of the members of a front, objective by objective, as real numbers. -/
noncomputable def realValues (m : FitnessMatrix EReal) (front : List ℕ) (k : ℕ)
    (p : Fin front.length) : ℝ :=
  ((m.row (front.get p)).getD k 0).toReal

/-- An objective of a front is listed as it is if its values are real. -/
theorem objective_eq_listed {k : ℕ} (h : ∀ i ∈ front, Exact.IsReal ((m.row i).getD k 0)) :
    Crowding.objective (front.map m.row) k = Crowding.listed (m.realValues front k) := by
  rw [Crowding.objective, List.map_map]
  refine List.ext_getElem ?_ fun p hp hp' => ?_
  · rw [List.length_map, Crowding.length_listed]
  · obtain ⟨htop, hbot⟩ := h _ (List.getElem_mem (by rwa [List.length_map] at hp))
    rw [List.getElem_map]
    exact (EReal.coe_toReal htop hbot).symm.trans (List.getElem_ofFn hp').symm

/-- **The passes compute crowding distances**: of three members or more with real values in all
objectives, each gets its distance, at the place that it has in the front. -/
theorem isDistance_crowdingPasses (hlen : 3 ≤ front.length)
    (hrow : ∀ i ∈ front, i < m.size ∧ m.frontWidth front ≤ (m.row i).length)
    (hreal : ∀ i ∈ front, ∀ k < m.frontWidth front, Exact.IsReal ((m.row i).getD k 0)) :
    ∃ ds : Array EReal, m.crowdingPasses front = .ok ds
      ∧ m.checkedCrowdingOf front = .ok ds.toList
      ∧ ds.size = front.length
      ∧ ∀ p : Fin front.length,
        Crowding.IsDistance (m.frontWidth front) (m.realValues front) p (ds.getD p 0) := by
  have hchecked := checkedCrowdingOf_eq_ok hrow
  refine ⟨(m.crowdingOf front).toArray, ?_, hchecked, ?_, fun p => ?_⟩
  · rw [crowdingPasses_eq, hchecked]
    rfl
  · rw [List.size_toArray, length_crowdingOf]
  · have hp : (p : ℕ) < (front.map m.row).length := (List.length_map _).symm ▸ p.2
    have hdistance : (m.crowdingOf front)[(p : ℕ)]?
        = some (Crowding.distanceAfter (m.realValues front) p (m.frontWidth front)) := by
      unfold crowdingOf
      rw [Crowding.getElem?_ofRows (by rwa [List.length_map]) _ hp]
      refine congrArg some (List.foldl_ext _ _ _ fun d k hk => ?_)
      rw [objective_eq_listed fun i hi => hreal i hi k (List.mem_range.1 hk)]
    rw [getD_toArray, List.getD_eq_getElem?_getD, hdistance, Option.getD_some]
    exact Crowding.isDistance_distanceAfter _ _ _

/-- Three members, in descending order of the first objective and with the same value in the
second. -/
noncomputable def ledge : FitnessMatrix EReal :=
  #[[(3 : ℝ), (5 : ℝ)], [(1 : ℝ), (5 : ℝ)], [(0 : ℝ), (5 : ℝ)]]

/-- Only the first objective tells the three members apart. -/
theorem realValues_ledge (p : Fin 3) :
    ledge.realValues [0, 1, 2] 0 p = ![3, 1, 0] p ∧ ledge.realValues [0, 1, 2] 1 p = 5 := by
  fin_cases p <;> exact ⟨EReal.toReal_coe _, EReal.toReal_coe _⟩

/-- The last of the three comes first in one objective, and the one in between is extreme in
none. -/
theorem ledge_isDistance :
    3 ≤ [0, 1, 2].length
      ∧ (∀ i ∈ [0, 1, 2], i < ledge.size ∧ ledge.frontWidth [0, 1, 2] ≤ (ledge.row i).length)
      ∧ (∀ i ∈ [0, 1, 2], ∀ k < ledge.frontWidth [0, 1, 2], Exact.IsReal ((ledge.row i).getD k 0))
      ∧ ∃ ds : Array EReal, ledge.crowdingPasses [0, 1, 2] = .ok ds
        ∧ ds.getD 2 0 = ⊤ ∧ 0 ≤ ds.getD 1 0 ∧ ds.getD 1 0 ≤ (2 : ℕ) := by
  have hlen : 3 ≤ [0, 1, 2].length := le_rfl
  have hrow : ∀ i ∈ [0, 1, 2], i < ledge.size
      ∧ ledge.frontWidth [0, 1, 2] ≤ (ledge.row i).length := by
    simp [ledge, frontWidth, row]
  have hreal : ∀ i ∈ [0, 1, 2], ∀ k < ledge.frontWidth [0, 1, 2],
      Exact.IsReal ((ledge.row i).getD k 0) := by
    intro i hi k hk
    have hk : k < 2 := hk
    fin_cases hi <;> interval_cases k <;> exact Exact.isReal_coe _
  obtain ⟨ds, hds, -, -, hdistance⟩ := isDistance_crowdingPasses hlen hrow hreal
  have hlast : Crowding.IsExtreme (ledge.realValues [0, 1, 2] 0) (2 : Fin 3) := by
    refine Or.inl fun q => ?_
    rw [Crowding.ComesBefore, (realValues_ledge q).1, (realValues_ledge 2).1]
    fin_cases q <;> simp
  have hinner : ∀ k < 2, ¬ Crowding.IsExtreme (ledge.realValues [0, 1, 2] k) (1 : Fin 3) := by
    intro k hk
    interval_cases k
    · refine not_or.2 ⟨fun h => h (2 : Fin 3) (Or.inl ?_), fun h => h (0 : Fin 3) (Or.inl ?_)⟩
      · rw [(realValues_ledge 2).1, (realValues_ledge 1).1]
        simp
      · rw [(realValues_ledge 1).1, (realValues_ledge 0).1]
        simp
    · -- the values are the same, so it is between the two by its place in the front
      refine not_or.2 ⟨fun h => h (0 : Fin 3) (Or.inr ⟨?_, ?_⟩),
        fun h => h (2 : Fin 3) (Or.inr ⟨?_, ?_⟩)⟩
      · rw [(realValues_ledge 0).2, (realValues_ledge 1).2]
      · decide
      · rw [(realValues_ledge 1).2, (realValues_ledge 2).2]
      · decide
  refine ⟨hlen, hrow, hreal, ds, hds, ?_, ?_⟩
  · exact (hdistance (2 : Fin 3)).eq_top_iff.2 ⟨0, Nat.zero_lt_two, hlast⟩
  · exact (hdistance (1 : Fin 3)).bounds hinner

end FitnessMatrix

end ParetoSelection
