import ParetoSelection.Proofs.Crowding.Passes
import ParetoSelection.Proofs.Fronts.Strategy
import ParetoSelection.Proofs.Nsga3.Checked
import ParetoSelection.Proofs.Policy.Reachable

/-!
# The survivors of a generation

The main result about policies over several objectives: a generation of a
policy with a population is never refused, and its survivors are a proper
choice (`isSurvivorChoice_nextGeneration`). What is asked of the caller is that
the parents are the population and that all rows have its number of objectives;
values may be anything. Counting dominators alone asks for more: that dominance
among the candidates has no cycle, as it loses candidates otherwise.

The check at the boundary accepts exactly lists of the right length, in range
and without repetition, so it never refuses a proper choice
(`checkSurvivors_eq_ok_iff`).
-/

namespace ParetoSelection

variable {α : Type}

namespace Policy

/-! ## The check at the boundary -/

/-- **There is no fault** in a list that stays in range, has no repetition, and
avoids what was seen before. -/
theorem findFault_eq_none_iff {combined : Nat} {seen kept : List Nat} :
    findFault combined seen kept = none
      ↔ (∀ i ∈ kept, i < combined) ∧ kept.Nodup ∧ ∀ i ∈ kept, i ∉ seen := by
  induction kept generalizing seen with
  | nil => simp [findFault]
  | cons i kept ih =>
    unfold findFault
    by_cases hout : combined ≤ i
    · rw [if_pos hout]
      refine iff_of_false (by simp) fun h => ?_
      exact absurd (h.1 i List.mem_cons_self) (Nat.not_lt.2 hout)
    rw [if_neg hout]
    by_cases hseen : i ∈ seen
    · rw [if_pos (List.contains_iff_mem.2 hseen)]
      refine iff_of_false (by simp) fun h => ?_
      exact h.2.2 i List.mem_cons_self hseen
    rw [if_neg (mt List.contains_iff_mem.1 hseen), ih]
    -- what is seen from here on is `i`, and what was seen before
    rw [List.forall_mem_cons, List.nodup_cons, List.forall_mem_cons]
    constructor
    · rintro ⟨hlt, hnodup, hnew⟩
      refine ⟨⟨Nat.lt_of_not_le hout, hlt⟩, ⟨?_, hnodup⟩, hseen, ?_⟩
      · exact fun hi => hnew i hi List.mem_cons_self
      · exact fun j hj hseen => hnew j hj (List.mem_cons_of_mem i hseen)
    · rintro ⟨⟨-, hlt⟩, ⟨hfirst, hnodup⟩, -, hnew⟩
      refine ⟨hlt, hnodup, fun j hj hmem => ?_⟩
      obtain rfl | hmem := List.mem_cons.1 hmem
      · exact hfirst hj
      · exact hnew j hj hmem

/-- **What the check accepts**, and that it changes nothing. -/
theorem checkSurvivors_eq_ok_iff {population combined : Nat} {kept kept' : List Nat} :
    checkSurvivors population combined kept = .ok kept'
      ↔ kept' = kept ∧ kept.length = population ∧ (∀ i ∈ kept, i < combined) ∧ kept.Nodup := by
  unfold checkSurvivors
  by_cases hlen : kept.length = population
  · rw [if_neg (not_not_intro hlen)]
    cases hfault : findFault combined [] kept with
    | none =>
      obtain ⟨hlt, hnodup, -⟩ := findFault_eq_none_iff.1 hfault
      show Except.ok kept = Except.ok kept' ↔ _
      rw [Except.ok.injEq]
      exact ⟨fun h => ⟨h.symm, hlen, hlt, hnodup⟩, fun h => h.1.symm⟩
    | some cause =>
      refine iff_of_false (fun h => by cases h) ?_
      rintro ⟨-, -, hlt, hnodup⟩
      have hnone := findFault_eq_none_iff.2 ⟨hlt, hnodup, fun i _ => List.not_mem_nil⟩
      rw [hfault] at hnone
      cases hnone
  · rw [if_pos hlen]
    exact iff_of_false (fun h => by cases h) fun h => hlen h.2.1

/-! ## A generation -/

variable [Scalar α]

omit [Scalar α] in
/-- There is no policy over several objectives for fewer than two members or
objectives. -/
theorem IsSound.two_le {p : Policy α} {dim : Nat} (h : IsSound p (some dim))
    (hkind : p.kind ≠ .singleObjective) : 2 ≤ p.populationSize ∧ 2 ≤ dim := by
  cases h with
  | singleObjective p dim => exact absurd rfl hkind
  | nsga2 size initialized => exact ⟨size, (initialized dim rfl).1⟩
  | nsga3 size initialized => exact ⟨size, (initialized dim rfl).1⟩

/-- A sound policy passes on the survivors of a generation whose candidates are
all placed. -/
theorem IsSound.nextUnchecked_eq_ok [SplitMix.Sampler] {p : Policy α} {dim : Nat}
    (h : IsSound p (some dim))
    (hkind : p.kind ≠ .singleObjective) {parents children : FitnessMatrix α}
    (hparents : parents.size = p.populationSize)
    (hcount : (parents ++ children).objectiveCount = .ok dim)
    (hpartition : ((parents ++ children).rankWith p.settings.strategy).IsPartition) :
    ∃ kept, (p.nextUnchecked parents children).1 = .ok kept
      ∧ ((parents ++ children).rankWith p.settings.strategy).IsSurvivorChoice
          p.populationSize kept := by
  have htarget : p.populationSize
      ≤ ((parents ++ children).rankWith p.settings.strategy).size := by
    rw [size_rankWith, Array.size_append, hparents]
    exact Nat.le_add_right _ _
  cases h with
  | singleObjective p dim => exact absurd rfl hkind
  | nsga2 size initialized =>
    obtain ⟨-, hdim, hsome⟩ := initialized dim rfl
    have hcheck := Nsga2.checkNext_eq_ok hsome hparents (by rw [hdim, hcount])
    exact Nsga2.nextGeneration_eq_ok hcheck hpartition htarget
  | nsga3 size initialized =>
    obtain ⟨-, r, hsome, hdim, hsearchable, -⟩ := initialized dim rfl
    have hcheck := Nsga3.checkNext_eq_ok hsome hparents (by rw [hdim, hcount])
    exact Nsga3.nextGeneration_eq_ok hcheck hsearchable hpartition htarget

/-- A generation does not change the settings. -/
theorem settings_nextUnchecked [SplitMix.Sampler] {p : Policy α} (hkind : p.kind ≠ .singleObjective)
    (parents children : FitnessMatrix α) :
    (p.nextUnchecked parents children).2.settings = p.settings := by
  cases p with
  | singleObjective p => exact absurd rfl hkind
  | nsga2 p => exact (p.nextGeneration_frame parents children).1
  | nsga3 p => exact (p.nextGeneration_frame parents children).1

/-- A sound NSGA-III policy finds the survivors of a generation in arrays. -/
theorem IsSound.checkedGeneration_eq_ok [SplitMix.Sampler] {q : Nsga3 α} {dim : Nat}
    (h : IsSound (.nsga3 q) (some dim)) {parents children : FitnessMatrix α}
    (hranked : (parents ++ children).checkedRank q.settings.strategy
      = .ok ((parents ++ children).rankWith q.settings.strategy)) :
    q.checkedGeneration parents children = .ok (q.nextGeneration parents children) := by
  refine Nsga3.checkedGeneration_eq_ok (fun r hr => ?_) hranked
  cases h with
  | nsga3 size initialized =>
    obtain ⟨-, r', hsome, -, hsearchable, hcounts⟩ := initialized dim rfl
    obtain rfl := Option.some.inj (hr.symm.trans hsome)
    exact ⟨hsearchable, hcounts⟩

/-- **The survivors of a generation.** A policy with a population over several
objectives, after any requests and with its generator in any state, returns as
many survivors as its population has members: pairwise different, all of them
parents or children, and none with a worse rank than anybody who is left out.
The check at the boundary accepts them. Neither ranking nor the crowding
distances of the fronts read anything outside the rows, and neither association
nor niching reads or writes anything outside its arrays. -/
theorem isSurvivorChoice_nextGeneration [SplitMix.Sampler] {p : Policy α} {dim : Nat}
    (h : p.Reachable (some dim))
    (hkind : p.kind ≠ .singleObjective) {parents children : FitnessMatrix α}
    (hparents : parents.size = p.populationSize)
    (hrows : ∀ row ∈ parents ++ children, row.length = dim)
    (hcycle : p.settings.strategy = .pairwise → (parents ++ children).IsAcyclic) :
    ∃ kept ranked, (parents ++ children).checkedRank p.settings.strategy = .ok ranked
      ∧ (∀ front ∈ ranked.fronts, (parents ++ children).checkedCrowdingOf front
          = .ok ((parents ++ children).crowdingOf front))
      ∧ (∀ q, p = .nsga3 q →
          q.checkedGeneration parents children = .ok (q.nextGeneration parents children))
      ∧ (p.nextUnchecked parents children).1 = .ok kept
      ∧ (p.nextGeneration parents children).1 = .ok kept
      ∧ kept.length = p.populationSize ∧ kept.Nodup
      ∧ (∀ i ∈ kept, i < parents.size + children.size)
      ∧ ∀ s ∈ kept, ∀ t < parents.size + children.size, t ∉ kept →
          ranked.rank s ≤ ranked.rank t := by
  obtain ⟨hpopulation, hdim⟩ := h.isSound.two_le hkind
  have hsize : (parents ++ children).size = parents.size + children.size := Array.size_append
  have hne : 0 < (parents ++ children).size := by omega
  have hcount := FitnessMatrix.objectiveCount_eq_ok hne hrows (by omega)
  have hwidth : (parents ++ children).width ≠ 1 := by
    rw [FitnessMatrix.width_eq hne hrows]
    exact Nat.ne_of_gt hdim
  have hpartition := isPartition_rankWith hwidth hcycle
  have hread : ∀ i < (parents ++ children).size, (parents ++ children).row i ≠ [] :=
    fun i hi => FitnessMatrix.row_ne_nil hrows (by omega) hi
  obtain ⟨kept, hkept, hchoice⟩ :=
    h.isSound.nextUnchecked_eq_ok hkind hparents hcount hpartition
  have hlt : ∀ i ∈ kept, i < parents.size + children.size := by
    intro i hi
    have hi := hchoice.lt_size i hi
    rwa [size_rankWith, hsize] at hi
  have hranked : (parents ++ children).checkedRank p.settings.strategy
      = .ok ((parents ++ children).rankWith p.settings.strategy) :=
    checkedRank_eq_ok hread hwidth
  refine ⟨kept, _, hranked, fun front hfront => ?_, fun q hq => ?_, hkept, ?_,
    hchoice.length_eq, hchoice.nodup, hlt, ?_⟩
  · refine FitnessMatrix.checkedCrowdingOf_eq_ok_of_rows hrows fun i hi => ?_
    rw [← size_rankWith _ p.settings.strategy]
    exact hpartition.lt_size hfront hi
  · subst hq
    exact h.isSound.checkedGeneration_eq_ok hranked
  · show (p.nextUnchecked parents children).1.bind (checkSurvivors
      (p.nextUnchecked parents children).2.settings.populationSize _) = .ok kept
    rw [hkept, settings_nextUnchecked hkind]
    exact checkSurvivors_eq_ok_iff.2 ⟨rfl, hchoice.length_eq, hlt, hchoice.nodup⟩
  · intro s hs t ht hnot
    refine hchoice.rank_le s hs t ?_ hnot
    rwa [size_rankWith, hsize]

/-- Settings for a population of two. -/
def pairSettings : Settings :=
  { populationSize := 2, seed := some 7 }

/-- Two members, each better than the other in one objective. -/
def openingPair : FitnessMatrix Binary64 :=
  #[[⟨0x3ff0000000000000⟩, ⟨0x4000000000000000⟩], [⟨0x4000000000000000⟩, ⟨0x3ff0000000000000⟩]]

/-- Two children: the first one has a value that is not a number, the second
one a value that is infinite. -/
def oddPair : FitnessMatrix Binary64 :=
  #[[⟨0x7ff8000000000000⟩, ⟨0x4000000000000000⟩], [⟨0x7ff0000000000000⟩, ⟨0x3ff0000000000000⟩]]

/-- The NSGA-III policy of the two members. -/
def pairPolicy : Policy Binary64 :=
  (Policy.start openingPair (nsga3 ⟨pairSettings, ⟨7⟩, none⟩)).2

/-- Of the two members and the two odd children, two survive. -/
theorem pairPolicy_nextGeneration :
    pairPolicy.Reachable (some 2)
      ∧ (openingPair ++ oddPair).IsAcyclic
      ∧ ∃ kept, (pairPolicy.nextGeneration openingPair oddPair).1 = .ok kept
          ∧ kept.length = 2 ∧ kept.Nodup := by
  have hcreated : ofObjectiveCount 2 pairSettings ⟨0⟩
      = .ok ((nsga3 ⟨pairSettings, ⟨7⟩, none⟩ : Policy Binary64), ⟨0⟩) := rfl
  have hreachable : pairPolicy.Reachable (some 2) :=
    .start (.ofObjectiveCount hcreated) openingPair (by decide +kernel)
  have hall : ∀ i < 4, ∀ j < 4, dominates ((openingPair ++ oddPair).row i)
      ((openingPair ++ oddPair).row j) = true → i % 2 < j % 2 := by decide +kernel
  have hacyclic : (openingPair ++ oddPair).IsAcyclic :=
    FitnessMatrix.isAcyclic_of_lt (· % 2) fun i j h => hall i h.1 j h.2.1 h.2.2
  obtain ⟨kept, -, -, -, -, -, hkept, hlen, hnodup, -⟩ :=
    isSurvivorChoice_nextGeneration hreachable (by decide +kernel)
      (by decide +kernel) (by decide +kernel) fun _ => hacyclic
  have hsize : pairPolicy.populationSize = 2 := by decide +kernel
  exact ⟨hreachable, hacyclic, kept, hkept, hlen.trans hsize, hnodup⟩

end Policy

end ParetoSelection
