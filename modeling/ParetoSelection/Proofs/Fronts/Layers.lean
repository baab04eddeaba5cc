import Mathlib.Data.Fintype.EquivFin
import Mathlib.Data.List.Chain
import Mathlib.Logic.Relation
import Mathlib.Order.Bounds.Defs
import Mathlib.Order.WellFounded
import ParetoSelection.Dominance
import ParetoSelection.Fitness
import ParetoSelection.Proofs.Fronts.Partition

/-!
# The layers of a dominance relation

Ranking is the same problem for every relation of dominance: the first layer
is everything that nothing dominates, and each further layer is everything
whose dominators all lie in the layers before. `IsLayered` says of a list of
fronts that it is these layers, as many as there are. It fixes the fronts up to
the order within each of them (`IsLayered.forall₂_perm`), so two algorithms
that both find layers agree.

Nothing is asked of the relation. It need not be transitive, and it may run in
a circle – then a candidate on the circle, or behind one, has at every stage a
dominator that is not yet placed, and no layer ever contains it. That is the
only way to be lost (`mem_flatten_iff_not_behind_cycle`), so the layers contain
everybody exactly where the relation has no cycle. The layer of a candidate is
the length of the longest chain of dominators above it
(`isGreatest_chain_length`).
-/

namespace ParetoSelection

open Relation

namespace FitnessMatrix

variable {α : Type} [Scalar α]

/-- **Candidate `i` dominates candidate `j`** of a matrix. -/
def Dominates (m : FitnessMatrix α) (i j : Nat) : Prop :=
  i < m.size ∧ j < m.size ∧ dominates (m.row i) (m.row j) = true

/-- **Dominance has no cycle**: no candidate dominates one that dominates one …
that dominates it. -/
def IsAcyclic (m : FitnessMatrix α) : Prop :=
  ∀ i, ¬ TransGen m.Dominates i i

/-- Only candidates dominate, and only candidates are dominated. -/
theorem Dominates.lt_size {m : FitnessMatrix α} (i j : Nat) (h : m.Dominates i j) :
    i < m.size ∧ j < m.size :=
  ⟨h.1, h.2.1⟩

/-- Dominance has no cycle if something gets larger from each dominator to
those it dominates. -/
theorem isAcyclic_of_lt {m : FitnessMatrix α} (depth : Nat → Nat)
    (h : ∀ i j, m.Dominates i j → depth i < depth j) : m.IsAcyclic := by
  have hlt {i j : Nat} (hij : TransGen m.Dominates i j) : depth i < depth j := by
    induction hij with
    | single hij => exact h _ _ hij
    | tail _ hjk ih => exact Nat.lt_trans ih (h _ _ hjk)
  exact fun i hii => Nat.lt_irrefl _ (hlt hii)

end FitnessMatrix

variable {D : Nat → Nat → Prop} {n : Nat}

/-- **A chain of dominators above a candidate**: the first of them dominates
the candidate, and each further one the one before. -/
def IsChainAbove (D : Nat → Nat → Prop) (j : Nat) (chain : List Nat) : Prop :=
  (j :: chain).IsChain fun a b => D b a

/-- **The next layer** once the candidates in `done` are placed: all others
whose dominators are all in `done`. -/
structure IsLayer (D : Nat → Nat → Prop) (n : Nat) (done layer : List Nat) : Prop where
  /-- No candidate is listed twice. -/
  nodup : layer.Nodup
  /-- The layer is who is left and has no dominator left. -/
  mem_iff : ∀ j, j ∈ layer ↔ j < n ∧ j ∉ done ∧ ∀ i, D i j → i ∈ done

/-- **The layers that follow** once the candidates in `done` are placed, up to
the first empty one. -/
inductive IsLayered (D : Nat → Nat → Prop) (n : Nat) : List Nat → List (List Nat) → Prop where
  /-- Nobody who is left can be placed. -/
  | nil {done : List Nat} (layer : IsLayer D n done []) : IsLayered D n done []
  /-- The next layer, and those that follow it. -/
  | cons {done front : List Nat} {rest : List (List Nat)} (ne_nil : front ≠ [])
      (layer : IsLayer D n done front) (following : IsLayered D n (done ++ front) rest) :
      IsLayered D n done (front :: rest)

/-- The next layer depends on who is placed, not on the order. -/
theorem IsLayer.perm {done done' front front' : List Nat} (h : IsLayer D n done front)
    (h' : IsLayer D n done' front') (hdone : ∀ j, j ∈ done ↔ j ∈ done') :
    front.Perm front' := by
  refine (List.perm_ext_iff_of_nodup h.nodup h'.nodup).2 fun j => ?_
  rw [h.mem_iff, h'.mem_iff]
  exact and_congr_right fun _ => and_congr (not_congr (hdone j))
    (forall₂_congr fun i _ => hdone i)

namespace IsLayered

/-- **The layers are determined**, up to the order within each. -/
theorem forall₂_perm {done done' : List Nat} {fronts fronts' : List (List Nat)}
    (h : IsLayered D n done fronts) (h' : IsLayered D n done' fronts')
    (hdone : ∀ j, j ∈ done ↔ j ∈ done') : List.Forall₂ List.Perm fronts fronts' := by
  induction h generalizing done' fronts' with
  | nil layer =>
    cases h' with
    | nil _ => exact List.Forall₂.nil
    | cons ne_nil layer' _ =>
      exact absurd (layer.perm layer' hdone).symm.eq_nil ne_nil
  | cons ne_nil layer _ ih =>
    cases h' with
    | nil layer' => exact absurd (layer.perm layer' hdone).eq_nil ne_nil
    | cons _ layer' following' =>
      have hperm := layer.perm layer' hdone
      refine List.Forall₂.cons hperm (ih following' fun j => ?_)
      rw [List.mem_append, List.mem_append, hdone j, hperm.mem_iff]

/-- Each front is the next layer after the fronts before it, and after the
last front the next layer is empty. -/
theorem isLayer {done : List Nat} {fronts : List (List Nat)} (h : IsLayered D n done fronts)
    {k : Nat} (hk : k ≤ fronts.length) :
    IsLayer D n (done ++ (fronts.take k).flatten) (fronts.getD k []) := by
  induction h generalizing k with
  | nil layer =>
    rw [Nat.le_zero.1 hk, List.take_zero, List.flatten_nil, List.append_nil]
    exact layer
  | cons _ layer _ ih =>
    cases k with
    | zero =>
      rw [List.take_zero, List.flatten_nil, List.append_nil]
      exact layer
    | succ k =>
      rw [List.take_succ_cons, List.flatten_cons, ← List.append_assoc, List.getD_cons_succ]
      exact ih (Nat.le_of_succ_le_succ hk)

/-- No front is empty. -/
theorem ne_nil {done : List Nat} {fronts : List (List Nat)} (h : IsLayered D n done fronts) :
    ∀ front ∈ fronts, front ≠ [] := by
  induction h with
  | nil _ => exact fun _ hmem => absurd hmem List.not_mem_nil
  | cons ne_nil _ _ ih => exact List.forall_mem_cons.2 ⟨ne_nil, ih⟩

/-- Nobody is placed twice. -/
theorem nodup {done : List Nat} {fronts : List (List Nat)} (h : IsLayered D n done fronts)
    (hdone : done.Nodup) : (done ++ fronts.flatten).Nodup := by
  induction h with
  | nil _ =>
    rw [List.flatten_nil, List.append_nil]
    exact hdone
  | cons _ layer _ ih =>
    rw [List.flatten_cons, ← List.append_assoc]
    refine ih (List.nodup_append'.2 ⟨hdone, layer.nodup, ?_⟩)
    exact List.disjoint_right.2 fun j hj => ((layer.mem_iff j).1 hj).2.1

/-- Only candidates are placed. -/
theorem lt_of_mem {done : List Nat} {fronts : List (List Nat)} (h : IsLayered D n done fronts)
    {j : Nat} (hj : j ∈ fronts.flatten) : j < n := by
  induction h with
  | nil _ => exact absurd hj List.not_mem_nil
  | cons _ layer _ ih =>
    rcases List.mem_append.1 (List.flatten_cons ▸ hj) with hj | hj
    · exact ((layer.mem_iff j).1 hj).1
    · exact ih hj

variable {fronts : List (List Nat)}

/-- Whoever is not placed has a dominator that is not placed. -/
theorem exists_lost_dominator (h : IsLayered D n [] fronts) {j : Nat} (hj : j < n)
    (hlost : j ∉ fronts.flatten) : ∃ i, D i j ∧ i ∉ fronts.flatten := by
  have hend := h.isLayer (Nat.le_refl _)
  rw [List.take_length, List.nil_append, List.getD_eq_default _ _ (Nat.le_refl _)] at hend
  by_contra hnone
  push Not at hnone
  exact List.not_mem_nil ((hend.mem_iff j).2 ⟨hj, hlost, hnone⟩)

/-- A candidate lies in one of the fronts before position `k` if it lies in one
at a smaller position. -/
theorem mem_flatten_take {j k : Nat} (h : j ∈ (fronts.take k).flatten) :
    ∃ l < k, j ∈ fronts.getD l [] := by
  obtain ⟨front, hfront, hj⟩ := List.mem_flatten.1 h
  obtain ⟨l, hl, rfl⟩ := List.mem_iff_getElem.1 hfront
  rw [List.length_take] at hl
  refine ⟨l, Nat.lt_of_lt_of_le hl (Nat.min_le_left _ _), ?_⟩
  rw [List.getElem_take] at hj
  rw [List.getD_eq_getElem _ _ (Nat.lt_of_lt_of_le hl (Nat.min_le_right _ _))]
  exact hj

/-- **The dominators of a member of a front lie in earlier fronts.** -/
theorem exists_lt_of_dominates (h : IsLayered D n [] fronts) {i j k : Nat}
    (hj : j ∈ fronts.getD k []) (hij : D i j) : ∃ l < k, i ∈ fronts.getD l [] := by
  have hk : k ≤ fronts.length := Nat.le_of_lt (lt_length_of_mem_getD hj)
  have hi := (((h.isLayer hk).mem_iff j).1 hj).2.2 i hij
  rw [List.nil_append] at hi
  exact mem_flatten_take hi

/-- **Everybody in a later front is dominated by a member of the front
before.** -/
theorem exists_dominator_in_front_before (h : IsLayered D n [] fronts) {j k : Nat}
    (hj : j ∈ fronts.getD (k + 1) []) : ∃ i ∈ fronts.getD k [], D i j := by
  have hk : k + 1 ≤ fronts.length := Nat.le_of_lt (lt_length_of_mem_getD hj)
  have htake : (fronts.take (k + 1)).flatten
      = (fronts.take k).flatten ++ fronts.getD k [] := by
    rw [List.take_succ_eq_append_getElem (Nat.lt_of_succ_le hk), List.flatten_append,
      List.flatten_singleton, List.getD_eq_getElem _ _ (Nat.lt_of_succ_le hk)]
  obtain ⟨hlt, hnot, hall⟩ := ((h.isLayer hk).mem_iff j).1 hj
  rw [List.nil_append, htake, List.mem_append, not_or] at hnot
  -- `j` was not ready one layer before, so a dominator was missing then
  have hready := mt (((h.isLayer (Nat.le_of_succ_le hk)).mem_iff j).2) hnot.2
  rw [List.nil_append] at hready
  push Not at hready
  obtain ⟨i, hij, hi⟩ := hready hlt hnot.1
  have hmem := hall i hij
  rw [List.nil_append, htake, List.mem_append] at hmem
  exact ⟨i, hmem.resolve_left hi, hij⟩

/-! ## Who is lost -/

/-- Dominance by any number of steps goes up to an earlier front. -/
theorem exists_le_of_transGen (h : IsLayered D n [] fronts) {i j k : Nat}
    (hj : j ∈ fronts.getD k []) (hij : TransGen D i j) : ∃ l < k, i ∈ fronts.getD l [] := by
  induction hij using TransGen.head_induction_on with
  | single hij => exact h.exists_lt_of_dominates hj hij
  | head hij _ ih =>
    obtain ⟨l, hl, hmem⟩ := ih
    obtain ⟨l', hl', hmem'⟩ := h.exists_lt_of_dominates hmem hij
    exact ⟨l', Nat.lt_trans hl' hl, hmem'⟩

/-- **Where everyone of a group is dominated by someone of the group there is a
cycle**, and it can be found above any given member. -/
theorem exists_cycle_above (hD : ∀ i j, D i j → i < n) {lost : Nat → Prop}
    (hlost : ∀ j, lost j → ∃ i, D i j ∧ lost i) {j : Nat} (hj : lost j) :
    ∃ c, TransGen D c c ∧ ReflTransGen D c j := by
  by_contra hnone
  push Not at hnone
  obtain ⟨i, hij, hi⟩ := hlost j hj
  -- the members of the group above `j` are finitely many, so without a cycle one of them is minimal
  let Higher : {c : Fin n // lost c ∧ ReflTransGen D c j} →
      {c : Fin n // lost c ∧ ReflTransGen D c j} → Prop := fun a b => TransGen D a.1 b.1
  have : IsTrans _ Higher := ⟨fun _ _ _ hab hbc => hab.trans hbc⟩
  have : Std.Irrefl Higher := ⟨fun a haa => hnone a.1 haa a.2.2⟩
  have hwf : WellFounded Higher := Finite.wellFounded_of_trans_of_irrefl Higher
  obtain ⟨top, -, hmin⟩ := hwf.has_min Set.univ
    ⟨⟨⟨i, hD i j hij⟩, hi, ReflTransGen.single hij⟩, trivial⟩
  obtain ⟨c, hc, hclost⟩ := hlost top.1 top.2.1
  exact hmin ⟨⟨c, hD c _ hc⟩, hclost, top.2.2.head hc⟩ trivial (TransGen.single hc)

/-- **A candidate is lost exactly where it lies on or behind a cycle.** -/
theorem mem_flatten_iff_not_behind_cycle (hD : ∀ i j, D i j → i < n)
    (h : IsLayered D n [] fronts) {j : Nat} :
    j ∈ fronts.flatten ↔ j < n ∧ ¬ ∃ c, TransGen D c c ∧ ReflTransGen D c j := by
  constructor
  · intro hj
    refine ⟨h.lt_of_mem hj, ?_⟩
    rintro ⟨c, hcc, hcj⟩
    obtain ⟨k, hk⟩ : ∃ k, j ∈ fronts.getD k [] := by
      obtain ⟨front, hfront, hj⟩ := List.mem_flatten.1 hj
      obtain ⟨k, hk, rfl⟩ := List.mem_iff_getElem.1 hfront
      exact ⟨k, by rw [List.getD_eq_getElem _ _ hk]; exact hj⟩
    obtain ⟨l, -, hl⟩ := h.exists_le_of_transGen hk (hcc.trans_left hcj)
    -- going round the cycle leads to ever earlier fronts
    induction l using Nat.strong_induction_on with
    | _ l ih =>
      obtain ⟨l', hl', hmem⟩ := h.exists_le_of_transGen hl hcc
      exact ih l' hl' hmem
  · rintro ⟨hlt, hnone⟩
    by_contra hj
    have hlost : ∀ j, (j < n ∧ j ∉ fronts.flatten) →
        ∃ i, D i j ∧ i < n ∧ i ∉ fronts.flatten := by
      intro j hj
      obtain ⟨i, hij, hi⟩ := h.exists_lost_dominator hj.1 hj.2
      exact ⟨i, hij, hD i j hij, hi⟩
    obtain ⟨c, hc⟩ := exists_cycle_above hD hlost ⟨hlt, hj⟩
    exact hnone ⟨c, hc⟩

/-- **The layers contain everybody exactly where there is no cycle.** -/
theorem forall_mem_flatten_iff_acyclic (hD : ∀ i j, D i j → i < n ∧ j < n)
    (h : IsLayered D n [] fronts) :
    (∀ j < n, j ∈ fronts.flatten) ↔ ∀ c, ¬ TransGen D c c := by
  constructor
  · intro hall c hcc
    obtain ⟨d, -, hdc⟩ := TransGen.tail'_iff.1 hcc
    have hmem := hall c (hD d c hdc).2
    exact ((h.mem_flatten_iff_not_behind_cycle fun i j hij => (hD i j hij).1).1 hmem).2
      ⟨c, hcc, ReflTransGen.refl⟩
  · intro hnone j hj
    refine (h.mem_flatten_iff_not_behind_cycle fun i j hij => (hD i j hij).1).2 ⟨hj, ?_⟩
    rintro ⟨c, hcc, -⟩
    exact hnone c hcc

/-! ## The layer is the length of the longest chain -/

/-- A member of the front at position `k` has a chain of `k` dominators. -/
theorem exists_chain (h : IsLayered D n [] fronts) {j k : Nat} (hj : j ∈ fronts.getD k []) :
    ∃ chain, chain.length = k ∧ IsChainAbove D j chain := by
  induction k generalizing j with
  | zero => exact ⟨[], rfl, List.isChain_singleton j⟩
  | succ k ih =>
    obtain ⟨i, hi, hij⟩ := h.exists_dominator_in_front_before hj
    obtain ⟨chain, hlen, hchain⟩ := ih hi
    refine ⟨i :: chain, by rw [List.length_cons, hlen], ?_⟩
    exact List.isChain_cons_cons.2 ⟨hij, hchain⟩

/-- It has no longer one. -/
theorem length_chain_le (h : IsLayered D n [] fronts) {chain : List Nat} {j k : Nat}
    (hj : j ∈ fronts.getD k []) (hchain : IsChainAbove D j chain) :
    chain.length ≤ k := by
  induction chain generalizing j k with
  | nil => exact Nat.zero_le k
  | cons i chain ih =>
    obtain ⟨hij, hchain⟩ := List.isChain_cons_cons.1 hchain
    obtain ⟨l, hl, hi⟩ := h.exists_lt_of_dominates hj hij
    exact Nat.lt_of_le_of_lt (ih hi hchain) hl

/-- **The position of a candidate's front is the length of the longest chain of
dominators above it.** -/
theorem isGreatest_chain_length (h : IsLayered D n [] fronts) {j k : Nat}
    (hj : j ∈ fronts.getD k []) :
    IsGreatest {l | ∃ chain, chain.length = l ∧ IsChainAbove D j chain} k := by
  refine ⟨h.exists_chain hj, ?_⟩
  rintro l ⟨chain, rfl, hchain⟩
  exact h.length_chain_le hj hchain

end IsLayered

/-! ## Canonical ranks -/

/-- **The canonical ranking of a relation of dominance**: nobody is lost,
dominators have smaller ranks, and no rank is larger than that requires. -/
structure RankedFronts.IsCanonical (D : Nat → Nat → Prop) (r : RankedFronts) : Prop where
  /-- Every candidate lies in exactly one front. -/
  isPartition : r.IsPartition
  /-- A dominator has a smaller rank. -/
  rank_lt : ∀ i j, D i j → r.rank i < r.rank j
  /-- Behind the first front everybody is dominated by a member of the front
  before. -/
  exists_dominator : ∀ j < r.size, ∀ k, r.rank j = k + 1 → ∃ i ∈ r.fronts.getD k [], D i j
  /-- The rank is the length of the longest chain of dominators. -/
  isGreatest_chain_length : ∀ j < r.size,
    IsGreatest {l | ∃ chain, chain.length = l ∧ IsChainAbove D j chain} (r.rank j)

/-- **The layers of a relation without a cycle are its canonical ranking.** -/
theorem IsLayered.isCanonical {r : RankedFronts} (hD : ∀ i j, D i j → i < r.size ∧ j < r.size)
    (hacyclic : ∀ c, ¬ TransGen D c c) (h : IsLayered D r.size [] r.fronts) :
    r.IsCanonical D := by
  have hall := (h.forall_mem_flatten_iff_acyclic hD).2 hacyclic
  have hpart : r.IsPartition :=
    { front_ne_nil := h.ne_nil
      nodup := h.nodup List.nodup_nil
      mem_ordered := fun i => ⟨h.lt_of_mem, hall i⟩
      mem_front := fun i hi => RankedFronts.mem_front_rank (hall i hi) }
  refine ⟨hpart, fun i j hij => ?_, fun j hj k hk => ?_, fun j hj => ?_⟩
  · obtain ⟨k, hk, hi⟩ := h.exists_lt_of_dominates (hpart.mem_front j (hD i j hij).2) hij
    rwa [RankedFronts.rank_eq_of_mem hpart.nodup hi]
  · have hmem := hpart.mem_front j hj
    rw [hk] at hmem
    exact h.exists_dominator_in_front_before hmem
  · exact h.isGreatest_chain_length (hpart.mem_front j hj)

end ParetoSelection
