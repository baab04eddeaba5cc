import Mathlib.Algebra.Order.BigOperators.Group.List
import ParetoSelection.Proofs.Nsga3.Outcome

/-!
# The draws do not decide how full the directions get

Two outcomes of one generation can differ in almost every survivor. How many
members the directions have is all but the same in both: for no direction do the
numbers differ by more than one, and over all directions they are the same numbers
in some other order (`occupancy_perm_of_isOutcome`).

No comparison of two runs draw by draw is needed for this, only that both outcomes
are fair. Where the first outcome gives a direction more members than the second, it
took a candidate that the second left (`IsFairFilling.exists_extra`); where it gives
a direction fewer, it is the other way round. Fairness of both outcomes, applied to
these two candidates, forces the four numbers to be two neighbouring levels, crosswise
(`exists_swapsLevel`). So all differences are between the same two levels, and as the
survivors are equally many there are as many differences up as down.
-/

namespace ParetoSelection

/-! ## Numbers that change places between two levels -/

/-- **Two numbers are the same, or the levels `l` and `l + 1`** in one order or the
other. -/
def SwapsLevel (l a b : Nat) : Prop :=
  a = b ∨ (a = l + 1 ∧ b = l) ∨ (a = l ∧ b = l + 1)

variable {c c' : Nat → Nat} {ds : List Nat}

/-- **Only one pair of levels is swapped**, if the sums are the same and each rise
bounds each fall. -/
theorem exists_swapsLevel (hsum : (ds.map c).sum = (ds.map c').sum)
    (h : ∀ d ∈ ds, ∀ e ∈ ds, c' d < c d → c e < c' e → c d ≤ c e + 1 ∧ c' e ≤ c' d + 1) :
    ∃ l, ∀ d ∈ ds, SwapsLevel l (c d) (c' d) := by
  by_cases hmore : ∃ d ∈ ds, c' d < c d
  · obtain ⟨d, hd, hlt⟩ := hmore
    obtain ⟨e, he, hgt⟩ : ∃ e ∈ ds, c e < c' e := by
      by_contra hnone
      push Not at hnone
      exact absurd hsum.symm (Nat.ne_of_lt (List.sum_lt_sum c' c hnone ⟨d, hd, hlt⟩))
    -- the rise at `d` and the fall at `e` are between the same two levels
    have hde := h d hd e he hlt hgt
    refine ⟨c' d, fun x hx => ?_⟩
    obtain hxlt | hxeq | hxgt := Nat.lt_trichotomy (c' x) (c x)
    · have hxe := h x hx e he hxlt hgt
      exact .inr (.inl ⟨by omega, by omega⟩)
    · exact .inl hxeq.symm
    · have hdx := h d hd x hx hlt hxgt
      exact .inr (.inr ⟨by omega, by omega⟩)
  · push Not at hmore
    refine ⟨0, fun d hd => .inl (Nat.le_antisymm (hmore d hd) (Nat.le_of_not_lt fun hlt => ?_))⟩
    exact absurd hsum (Nat.ne_of_lt (List.sum_lt_sum c c' hmore ⟨d, hd, hlt⟩))

/-- **How often a number occurs** before and after swaps of two levels: what the
levels gain and lose is what the sum does. -/
theorem count_map_of_swapsLevel {l : Nat} (h : ∀ d ∈ ds, SwapsLevel l (c d) (c' d)) :
    ((ds.map c).count (l + 1) + (ds.map c').sum = (ds.map c').count (l + 1) + (ds.map c).sum
      ∧ (ds.map c).count l + (ds.map c).sum = (ds.map c').count l + (ds.map c').sum)
      ∧ ∀ x, x ≠ l → x ≠ l + 1 → (ds.map c).count x = (ds.map c').count x := by
  induction ds with
  | nil => exact ⟨⟨rfl, rfl⟩, fun x _ _ => rfl⟩
  | cons d ds ih =>
    obtain ⟨hd, hds⟩ := List.forall_mem_cons.1 h
    obtain ⟨⟨hupper, hlower⟩, hother⟩ := ih hds
    have hne : l ≠ l + 1 := Nat.ne_of_lt (Nat.lt_succ_self l)
    simp only [List.map_cons, List.sum_cons, List.count_cons, beq_iff_eq]
    obtain heq | ⟨hc, hc'⟩ | ⟨hc, hc'⟩ := hd
    · rw [heq]
      exact ⟨⟨by omega, by omega⟩, fun x hx hx' => by rw [hother x hx hx']⟩
    · rw [hc, hc', if_pos rfl, if_neg hne, if_neg hne.symm, if_pos rfl]
      refine ⟨⟨by omega, by omega⟩, fun x hx hx' => ?_⟩
      rw [hother x hx hx', if_neg hx'.symm, if_neg hx.symm]
    · rw [hc, hc', if_pos rfl, if_neg hne, if_neg hne.symm, if_pos rfl]
      refine ⟨⟨by omega, by omega⟩, fun x hx hx' => ?_⟩
      rw [hother x hx hx', if_neg hx'.symm, if_neg hx.symm]

/-- **Swaps of two levels that keep the sum rearrange the numbers.** -/
theorem perm_of_swapsLevel {l : Nat} (hsum : (ds.map c).sum = (ds.map c').sum)
    (h : ∀ d ∈ ds, SwapsLevel l (c d) (c' d)) : (ds.map c).Perm (ds.map c') := by
  obtain ⟨⟨hupper, hlower⟩, hother⟩ := count_map_of_swapsLevel h
  refine List.perm_iff_count.2 fun x => ?_
  by_cases hx : x = l
  · rw [hx]
    exact Nat.add_right_cancel (hlower.trans (by rw [hsum]))
  · by_cases hx' : x = l + 1
    · rw [hx']
      exact Nat.add_right_cancel (hupper.trans (by rw [hsum]))
    · exact hother x hx hx'

/-! ## Two fair fillings -/

variable {α : Type}

namespace Niching

variable {assoc : Nat → Association α}

/-- The numbers of members of all directions sum up to the number of members. -/
theorem sum_occupancy {n : Nat} (h : ∀ i, (assoc i).direction < n) (members : List Nat) :
    ((List.range n).map (occupancy assoc members)).sum = members.length := by
  refine (Association.sum_countP_eq (fun i => (assoc i).direction) members n).trans ?_
  exact List.countP_eq_length.2 fun i _ => decide_eq_true (h i)

variable [Scalar α] {complete overflowing kept kept' : List Nat}

/-- **Who makes a direction fuller**: if a direction has more members in one fair
filling than in another, one of them is of the front at the cut and is left out by
the other. -/
theorem IsFairFilling.exists_extra (h : IsFairFilling assoc complete overflowing kept)
    (h' : IsFairFilling assoc complete overflowing kept') {d : Nat}
    (hlt : occupancy assoc kept' d < occupancy assoc kept d) :
    ∃ i ∈ overflowing, i ∈ kept ∧ i ∉ kept' ∧ (assoc i).direction = d := by
  by_contra hnone
  push Not at hnone
  have hsub : (kept.filter fun i => (assoc i).direction = d)
      ⊆ kept'.filter fun i => (assoc i).direction = d := by
    intro i hi
    obtain ⟨hi, hd⟩ := List.mem_filter.1 hi
    refine List.mem_filter.2 ⟨?_, hd⟩
    obtain hcomplete | hfront := h.mem_or_mem i hi
    · exact h'.complete_subset i hcomplete
    · by_contra hleft
      exact hnone i hfront hi hleft (of_decide_eq_true hd)
  have hle := (List.subperm_of_subset (h.nodup.filter _) hsub).length_le
  rw [← List.countP_eq_length_filter, ← List.countP_eq_length_filter] at hle
  exact absurd hlt (Nat.not_lt_of_le hle)

/-- **A rise and a fall bound each other**, between two fair fillings. -/
theorem IsFairFilling.occupancy_le_and_le (h : IsFairFilling assoc complete overflowing kept)
    (h' : IsFairFilling assoc complete overflowing kept') {d e : Nat}
    (hd : occupancy assoc kept' d < occupancy assoc kept d)
    (he : occupancy assoc kept e < occupancy assoc kept' e) :
    occupancy assoc kept d ≤ occupancy assoc kept e + 1
      ∧ occupancy assoc kept' e ≤ occupancy assoc kept' d + 1 := by
  obtain ⟨i, hi, hkept, hleft, rfl⟩ := h.exists_extra h' hd
  obtain ⟨j, hj, hkept', hleft', rfl⟩ := h'.exists_extra h he
  exact ⟨h.occupancy_le i hi hkept j hj hleft', h'.occupancy_le j hj hkept' i hi hleft⟩

/-- **Two fair fillings of one size** swap two levels. -/
theorem IsFairFilling.exists_swapsLevel (h : IsFairFilling assoc complete overflowing kept)
    (h' : IsFairFilling assoc complete overflowing kept') (hlen : kept.length = kept'.length)
    {n : Nat} (hlt : ∀ i, (assoc i).direction < n) :
    ∃ l, ∀ d ∈ List.range n,
      SwapsLevel l (occupancy assoc kept d) (occupancy assoc kept' d) := by
  refine ParetoSelection.exists_swapsLevel ?_ fun d _ e _ hd he => h.occupancy_le_and_le h' hd he
  rw [sum_occupancy hlt, sum_occupancy hlt, hlen]

end Niching

namespace Nsga3

/-- **The draws decide hardly anything about how full the directions get.** The policy
is in a state that requests lead to. Of any two outcomes of a generation – the
generator leads to one from any state in which the generation is granted – the numbers
of members differ by at most one for every direction, and the numbers for all
directions are the same up to their order. -/
theorem occupancy_perm_of_isOutcome [SplitMix.Sampler] {p : Nsga3 Binary64} {dim : Nat}
    (h : (Policy.nsga3 p).Reachable (some dim)) (parents children : FitnessMatrix Binary64) :
    (∀ g kept, ({ p with generator := g }.nextGeneration parents children).1 = .ok kept →
        ∃ after, ({ p with generator := g }.nextGeneration parents children).2.run = some after
          ∧ p.IsOutcome parents children kept after)
      ∧ ∀ kept kept' after after', p.IsOutcome parents children kept after →
        p.IsOutcome parents children kept' after' →
        after.directions = after'.directions
          ∧ (∀ d, after.occupancy d ≤ after'.occupancy d + 1
              ∧ after'.occupancy d ≤ after.occupancy d + 1)
          ∧ ((List.range after.directions.size).map after.occupancy).Perm
              ((List.range after.directions.size).map after'.occupancy) := by
  refine ⟨fun g kept => isOutcome_nextGeneration g, ?_⟩
  intro kept kept' after after' houtcome houtcome'
  obtain ⟨r, hrun⟩ := exists_run_of_reachable h
  obtain ⟨hdirections, hlt, hmembers, hlen, hfair⟩ := houtcome.isFairFilling h hrun
  obtain ⟨hdirections', -, hmembers', hlen', hfair'⟩ := houtcome'.isFairFilling h hrun
  have hoccupancy : after.occupancy = Niching.occupancy _ kept := funext (Run.occupancy_eq hmembers)
  have hoccupancy' : after'.occupancy = Niching.occupancy _ kept' :=
    funext (Run.occupancy_eq hmembers')
  have hsame : kept.length = kept'.length := hlen.trans hlen'.symm
  obtain ⟨l, hswaps⟩ := hfair.exists_swapsLevel hfair' hsame hlt
  rw [hdirections, hdirections', hoccupancy, hoccupancy']
  refine ⟨rfl, fun d => ?_, perm_of_swapsLevel ?_ hswaps⟩
  · by_cases hd : d < r.directions.size
    · obtain heq | ⟨hup, hdown⟩ | ⟨hdown, hup⟩ := hswaps d (List.mem_range.2 hd)
      · exact ⟨by omega, by omega⟩
      · exact ⟨by omega, by omega⟩
      · exact ⟨by omega, by omega⟩
    · -- nobody has a direction that there is not
      have hnone (members : List Nat) :
          Niching.occupancy (r.candidate p.settings (parents ++ children)) members d = 0 := by
        refine List.countP_eq_zero.2 fun i _ hi => hd ?_
        rw [← of_decide_eq_true hi]
        exact hlt i
      rw [hnone, hnone]
      exact ⟨Nat.zero_le 1, Nat.zero_le 1⟩
  · rw [Niching.sum_occupancy hlt, Niching.sum_occupancy hlt, hsame]

/-- From the generator's states zero and one, the three members and the child end up
differently: one time the first direction has two members, the other time the last. -/
theorem trioPolicy_occupancy_perm :
    (Policy.nsga3 trioPolicy).Reachable (some 2)
      ∧ ∃ after after', trioPolicy.IsOutcome trio fourth [2, 0, 1] after
        ∧ trioPolicy.IsOutcome trio fourth [2, 0, 3] after'
        ∧ (∀ d, after.occupancy d ≤ after'.occupancy d + 1
            ∧ after'.occupancy d ≤ after.occupancy d + 1)
        ∧ ((List.range after.directions.size).map after.occupancy).Perm
            ((List.range after.directions.size).map after'.occupancy) := by
  obtain ⟨hgenerator, hperm⟩ := occupancy_perm_of_isOutcome reachable_trioPolicy trio fourth
  obtain ⟨after, -, houtcome⟩ := hgenerator ⟨0⟩ [2, 0, 1] (by decide +kernel)
  obtain ⟨after', -, houtcome'⟩ := hgenerator ⟨1⟩ [2, 0, 3] (by decide +kernel)
  obtain ⟨-, hdiffer, hsame⟩ := hperm _ _ after after' houtcome houtcome'
  exact ⟨reachable_trioPolicy, after, after', houtcome, houtcome', hdiffer, hsame⟩

end Nsga3

end ParetoSelection
