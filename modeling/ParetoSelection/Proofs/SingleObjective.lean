import ParetoSelection.Proofs.Fronts.Survival
import ParetoSelection.Proofs.Policy.Refusals
import ParetoSelection.Proofs.StableSort
import ParetoSelection.Proofs.TopOf

/-!
# Keeping the fittest

A generation keeps the fittest of parents and children, and among equally fit ones those
that are listed first. Both orders are total, the one of all binary64 patterns and the one
of positions, so that there is no choice in it: the list of those kept is determined
(`IsTopOf.unique`).

Whoever is not among the first `n` of some candidates is not among the first `n` of more
candidates either (`IsTopOf.trans`). So it makes no difference whether children come all at
once or in two batches – if the second update breaks ties as a single one would. It breaks
them by position, and the survivors of the first update have got new positions. But they are
returned in order, so that where two are equally fit the one with the lower position has kept
it (`precedes_origin`), and all of them stand before the second batch. The result about the
policy is `nextGeneration_keeps_fittest`.
-/

namespace ParetoSelection

namespace SingleObjective

variable {m : FitnessMatrix Binary64}

/-! ## The order of fitness -/

/-- **Candidate `i` comes before candidate `k`**: it is fitter, or as fit and listed
before. -/
def Precedes (m : FitnessMatrix Binary64) (i k : Nat) : Prop :=
  Scalar.totalCmp (fitness m k) (fitness m i) = .lt ∨
    Scalar.totalCmp (fitness m k) (fitness m i) = .eq ∧ i < k

/-- The place of a candidate's fitness in the order of all patterns. -/
def fitnessKey (m : FitnessMatrix Binary64) (i : Nat) : Nat :=
  (fitness m i).orderKey.toNat

/-- The order is that of the keys, and on equal keys that of the positions. -/
theorem precedes_iff {i k : Nat} :
    Precedes m i k ↔ fitnessKey m k < fitnessKey m i ∨
      fitnessKey m k = fitnessKey m i ∧ i < k := by
  rw [Precedes, Binary64.totalCmp_eq_compare_toNat]
  exact or_congr compare_lt_iff_lt (and_congr_left fun _ => compare_eq_iff_eq)

/-- Of two candidates not both come before the other. -/
theorem Precedes.asymm {i k : Nat} (h : Precedes m i k) : ¬ Precedes m k i := by
  rw [precedes_iff] at h ⊢
  omega

/-- What comes before something that comes before comes before. -/
theorem Precedes.trans {i j k : Nat} (h : Precedes m i j) (h' : Precedes m j k) :
    Precedes m i k := by
  rw [precedes_iff] at h h' ⊢
  omega

/-- The sort compares candidates by their keys. -/
theorem totalLE_fitness_iff {i k : Nat} :
    Scalar.totalLE (fitness m k) (fitness m i) = true ↔ fitnessKey m k ≤ fitnessKey m i :=
  Binary64.isTotalBy_orderKey.totalLE_iff

/-- **The candidates are sorted**: the sort puts the fitter ones first, and it is stable. -/
theorem pairwise_precedes_fittestFirst (m : FitnessMatrix Binary64) :
    (fittestFirst m).Pairwise (Precedes m) := by
  have hsorted := pairwise_stableSort_of_key (fun i => OrderDual.toDual (fitnessKey m i))
    (fun i k => totalLE_fitness_iff) m.candidates
  refine hsorted.imp fun {i k} hik => precedes_iff.2 (hik.imp_right fun hties => ?_)
  exact ⟨hties.1.symm, List.pairwise_iff_forall_sublist.1 List.pairwise_lt_range hties.2⟩

/-- **The fittest are the first** of all candidates. -/
theorem isTopOf_fittestFirst (m : FitnessMatrix Binary64) (n : Nat) :
    IsTopOf (Precedes m) n (List.range m.size) ((fittestFirst m).take n) :=
  (isTopOf_take (pairwise_precedes_fittestFirst m) n).of_perm (stableSort_perm _ m.candidates)

/-! ## One update -/

variable {p : SingleObjective} {parents children : FitnessMatrix Binary64}

/-- **A generation has its survivors** if there are as many parents as there have to be, and
every row has one objective. -/
theorem nextGeneration_eq_ok (hstarted : p.started = true) (hpos : 0 < p.settings.populationSize)
    (hsize : parents.size = p.settings.populationSize)
    (hlength : ∀ row ∈ parents ++ children, row.length = 1) :
    p.nextGeneration parents children
      = (.ok ((fittestFirst (parents ++ children)).take p.settings.populationSize), p) := by
  have hne : 0 < (parents ++ children).size := by
    rw [Array.size_append, hsize]
    exact Nat.add_pos_left hpos _
  have hone : requireOneObjective (parents ++ children) = .ok () := by
    rw [requireOneObjective, FitnessMatrix.objectiveCount_eq_ok hne hlength Nat.one_pos]
    rfl
  have hcheck : checkNext parents children p = .ok () := by
    rw [checkNext, requireStarted, if_pos hstarted]
    show (if parents.size ≠ p.settings.populationSize then _ else _) = _
    rw [if_neg (not_not_intro hsize)]
    exact hone
  rw [nextGeneration, hcheck]

/-- **The survivors can be the next parents**: there are as many of them, and their rows are
rows of before. -/
theorem pick_fittestFirst {n : Nat} (hn : n ≤ m.size) (hlength : ∀ row ∈ m, row.length = 1) :
    (m.pick ((fittestFirst m).take n)).size = n ∧
      ∀ row ∈ m.pick ((fittestFirst m).take n), row.length = 1 := by
  have htop := isTopOf_fittestFirst m n
  constructor
  · rw [FitnessMatrix.size_pick, htop.length_eq, List.length_range, Nat.min_eq_left hn]
  · intro row hrow
    obtain ⟨i, hi, rfl⟩ := List.mem_map.1 (List.mem_toArray.1 hrow)
    exact hlength _ (FitnessMatrix.row_mem (List.mem_range.1 (htop.subperm.subset hi)))

/-! ## Two updates -/

/-- A row of the first of two matrices. -/
theorem row_append_left {first second : FitnessMatrix Binary64} {i : Nat} (hi : i < first.size) :
    (first ++ second).row i = first.row i := by
  rw [FitnessMatrix.row, FitnessMatrix.row, Array.getD_eq_getD_getElem?,
    Array.getD_eq_getD_getElem?, Array.getElem?_append_left hi]

/-- A row of the second of two matrices. -/
theorem row_append_right {first second : FitnessMatrix Binary64} (i : Nat) :
    (first ++ second).row (first.size + i) = second.row i := by
  rw [FitnessMatrix.row, FitnessMatrix.row, Array.getD_eq_getD_getElem?,
    Array.getD_eq_getD_getElem?, Array.getElem?_append_right (Nat.le_add_right _ _),
    Nat.add_sub_cancel_left]

/-- **Where a candidate of a second update comes from**: the survivors `kept` of the first
one come first, and then those that come after the `size` candidates of the first one. -/
def origin (kept : List Nat) (size : Nat) (k : Nat) : Nat :=
  if k < kept.length then kept.getD k 0 else size + (k - kept.length)

variable {first second : FitnessMatrix Binary64} {kept : List Nat}

/-- The candidates of a second update are the survivors and those who come after. -/
theorem map_origin_range (kept : List Nat) (size later : Nat) :
    (List.range (kept.length + later)).map (origin kept size)
      = kept ++ (List.range later).map (size + ·) := by
  have hkept : (List.range kept.length).map (origin kept size) = kept := by
    refine Eq.trans (List.map_congr_left fun k hk => ?_) (map_getD_range kept 0)
    rw [origin, if_pos (List.mem_range.1 hk)]
  have hlater : ((List.range later).map (kept.length + ·)).map (origin kept size)
      = (List.range later).map (size + ·) := by
    rw [List.map_map]
    refine List.map_congr_left fun k _ => ?_
    rw [Function.comp_apply, origin, if_neg (by omega), Nat.add_sub_cancel_left]
  rw [List.range_add, List.map_append, hkept, hlater]

/-- A candidate is as fit as where it comes from. -/
theorem fitnessKey_origin (hkept : ∀ i ∈ kept, i < first.size) (k : Nat) :
    fitnessKey (first.pick kept ++ second) k
      = fitnessKey (first ++ second) (origin kept first.size k) := by
  have hrow : (first.pick kept ++ second).row k
      = (first ++ second).row (origin kept first.size k) := by
    have hsize : (first.pick kept).size = kept.length := FitnessMatrix.size_pick first kept
    by_cases hk : k < kept.length
    · rw [origin, if_pos hk, row_append_left (hsize.symm ▸ hk), FitnessMatrix.row_pick hk,
        row_append_left (hkept _ (getD_mem hk))]
    · have hsplit : k = (first.pick kept).size + (k - kept.length) := by omega
      rw [origin, if_neg hk, row_append_right]
      conv_lhs => rw [hsplit]
      exact row_append_right _
  rw [fitnessKey, fitnessKey, fitness, fitness, hrow]

/-- **The second update breaks ties as a single one would**: whoever comes before another
comes before it where they come from. -/
theorem precedes_origin (hkept : ∀ i ∈ kept, i < first.size)
    (hsorted : kept.Pairwise (Precedes (first ++ second))) {k l : Nat}
    (h : Precedes (first.pick kept ++ second) k l) :
    Precedes (first ++ second) (origin kept first.size k) (origin kept first.size l) := by
  rw [precedes_iff, fitnessKey_origin hkept, fitnessKey_origin hkept] at h
  rw [precedes_iff]
  refine h.imp id fun ⟨heq, hkl⟩ => ⟨heq, ?_⟩
  unfold origin at heq ⊢
  by_cases hl : l < kept.length
  · -- both are survivors, and survivors are in order
    have hk : k < kept.length := Nat.lt_trans hkl hl
    have hprecedes := List.pairwise_iff_getElem.1 hsorted k l hk hl hkl
    rw [if_pos hk, if_pos hl, List.getD_eq_getElem _ _ hk, List.getD_eq_getElem _ _ hl] at heq ⊢
    rw [precedes_iff] at hprecedes
    omega
  · rw [if_neg hl]
    by_cases hk : k < kept.length
    · rw [if_pos hk]
      exact Nat.lt_add_right _ (hkept _ (getD_mem hk))
    · rw [if_neg hk]
      omega

/-- The first of some candidates are in the same order if more come after them. -/
theorem isTopOf_append (first second : FitnessMatrix Binary64) (n : Nat) :
    IsTopOf (Precedes (first ++ second)) n (List.range first.size)
      ((fittestFirst first).take n) := by
  have hsame : ∀ i ∈ List.range first.size, ∀ k ∈ List.range first.size,
      Precedes first i k → Precedes (first ++ second) (id i) (id k) := by
    intro i hi k hk h
    rw [precedes_iff] at h ⊢
    rw [id, id, fitnessKey, fitnessKey, fitness, fitness, row_append_left (List.mem_range.1 hi),
      row_append_left (List.mem_range.1 hk)]
    exact h
  have hmap := (isTopOf_fittestFirst first n).map hsame
  rwa [List.map_id, List.map_id] at hmap

/-- **Keeping the fittest of the fittest and of those who come later keeps the fittest of
all**, in the same order. -/
theorem map_origin_fittestFirst (first second : FitnessMatrix Binary64) (n : Nat) :
    let kept := (fittestFirst first).take n
    ((fittestFirst (first.pick kept ++ second)).take n).map (origin kept first.size)
      = (fittestFirst (first ++ second)).take n := by
  intro kept
  have hfirst : IsTopOf (Precedes (first ++ second)) n (List.range first.size) kept :=
    isTopOf_append first second n
  have hkept (i : Nat) (hi : i ∈ kept) : i < first.size :=
    List.mem_range.1 (hfirst.subperm.subset hi)
  have hsecond := (isTopOf_fittestFirst (first.pick kept ++ second) n).map fun k _ l _ h =>
    precedes_origin hkept hfirst.pairwise h
  have hcandidates : (List.range (first ++ second).size)
      = List.range first.size ++ (List.range second.size).map (first.size + ·) := by
    rw [Array.size_append, List.range_add]
  have hnodup : (List.range (first ++ second).size).Nodup := List.nodup_range
  rw [Array.size_append, FitnessMatrix.size_pick, map_origin_range] at hsecond
  rw [hcandidates] at hnodup
  have hboth := hfirst.trans hsecond (fun _ _ _ => Precedes.trans) hnodup
  rw [← hcandidates] at hboth hnodup
  exact hboth.unique (isTopOf_fittestFirst (first ++ second) n) (fun _ _ => Precedes.asymm) hnodup

/-! ## Policies that have had a population -/

/-- A policy that takes a first population only notes that it has had one. -/
theorem start_snd_of_granted {α : Type} {m : FitnessMatrix α} {p : SingleObjective}
    (granted : (p.start m).1 = .ok ()) : (p.start m).2 = { p with started := true } := by
  unfold start at granted ⊢
  split at granted
  · cases granted
  · rfl

/-- Drawing a parent changes the generator at most. -/
theorem drawParent_frame [SplitMix.Sampler] {α : Type} [Scalar α] (m : FitnessMatrix α)
    (p : SingleObjective) :
    (p.drawParent m).2.settings = p.settings ∧ (p.drawParent m).2.started = p.started := by
  unfold drawParent
  split
  · exact ⟨rfl, rfl⟩
  · exact ⟨rfl, rfl⟩

/-- **A policy for at least two members that knows whether it has had a population**, if it
is one for a single objective. -/
def IsReady {α : Type} : Policy α → Option Nat → Prop
  | .singleObjective p, dim => 2 ≤ p.settings.populationSize ∧ (dim ≠ none → p.started = true)
  | .nsga2 _, _ => True
  | .nsga3 _, _ => True

/-- A new policy is ready. -/
theorem isReady_ofObjectiveCount {α : Type} {objectives : Nat} {settings : Settings}
    {shared rest : SplitMix} {p : Policy α}
    (h : Policy.ofObjectiveCount objectives settings shared = .ok (p, rest)) : IsReady p none := by
  unfold Policy.ofObjectiveCount at h
  split at h
  · cases h
  · obtain ⟨⟨new, rest⟩, hnew, hp⟩ := exists_of_map_eq_ok h
    obtain ⟨⟨own, shared⟩, hgenerator, hcreated⟩ := exists_of_map_eq_ok hnew
    cases hcreated
    cases hp
    exact ⟨Policy.two_le_of_generator hgenerator, fun hne => absurd rfl hne⟩
  · obtain ⟨⟨new, rest⟩, -, hp⟩ := exists_of_map_eq_ok h
    cases hp
    trivial

section Requests

variable {α : Type} [Scalar α] {p : Policy α} {dim : Option Nat} {m : FitnessMatrix α}

/-- **With a first population that is taken** the policy has had one. -/
theorem IsReady.start (h : IsReady p dim) (granted : (p.start m).1 = .ok ()) :
    IsReady (p.start m).2 (some m.width) := by
  cases p with
  | singleObjective p =>
    have hgranted : (p.start m).1.mapError Failure.error = .ok () := granted
    show IsReady (.singleObjective (p.start m).2) _
    rw [start_snd_of_granted (of_mapError_eq_ok hgranted)]
    exact ⟨h.1, fun _ => rfl⟩
  | nsga2 p => trivial
  | nsga3 p => trivial

/-- Drawing a parent changes nothing that counts. -/
theorem IsReady.drawParent [SplitMix.Sampler] (h : IsReady p dim) :
    IsReady (p.drawParent m).2 dim := by
  cases p with
  | singleObjective p =>
    obtain ⟨hsettings, hstarted⟩ := p.drawParent_frame m
    show 2 ≤ (p.drawParent m).2.settings.populationSize ∧ (_ → (p.drawParent m).2.started = true)
    rw [hsettings, hstarted]
    exact h
  | nsga2 p => trivial
  | nsga3 p => trivial

/-- Neither does a generation, granted or refused. -/
theorem IsReady.nextGeneration [SplitMix.Sampler] (h : IsReady p dim)
    (parents children : FitnessMatrix α) :
    IsReady (p.nextGeneration parents children).2 dim := by
  cases p with
  | singleObjective p =>
    show IsReady (.singleObjective (p.nextGeneration parents children).2) dim
    rwa [p.nextGeneration_snd]
  | nsga2 p => trivial
  | nsga3 p => trivial

/-- **All policies that requests lead to are ready.** -/
theorem isReady_of_reachable [SplitMix.Sampler] (h : p.Reachable dim) : IsReady p dim := by
  induction h with
  | ofObjectiveCount h => exact isReady_ofObjectiveCount h
  | ofNsga2 h =>
    obtain ⟨⟨new, rest⟩, -, hp⟩ := exists_of_map_eq_ok h
    cases hp
    trivial
  | start _ m granted ih => exact ih.start granted
  | startRefused _ m refused ih => rwa [Policy.start_snd refused]
  | prepare _ ih => rwa [Policy.prepare_snd]
  | draw _ m ih => exact ih.drawParent
  | next _ parents children ih => exact ih.nextGeneration parents children
  | @reseed p _ _ g ih => cases p <;> exact ih

end Requests

/-! ## Policies keep the fittest -/

/-- **A generation keeps the fittest**, as many as there were, in descending order of fitness
and in ascending order of position where two are equally fit; and it does not matter whether
the children come all at once or in two batches. Positions in the second update are traced
back to where their candidates were in the first one. -/
theorem nextGeneration_keeps_fittest [SplitMix.Sampler] {dim : Nat}
    (hp : (Policy.singleObjective p : Policy Binary64).Reachable (some dim))
    (hsize : parents.size = p.settings.populationSize)
    (hparents : ∀ row ∈ parents, row.length = 1) (hchildren : ∀ row ∈ children, row.length = 1) :
    ∃ kept, p.nextGeneration parents children = (.ok kept, p) ∧
      kept.length = p.settings.populationSize ∧ kept.Nodup ∧
      (∀ i ∈ kept, i < parents.size + children.size) ∧
      kept.Pairwise (Precedes (parents ++ children)) ∧
      (∀ i ∈ kept, ∀ k < parents.size + children.size, k ∉ kept →
        ¬ Precedes (parents ++ children) k i) ∧
      ∀ first second, children = first ++ second →
        ∃ kept₁ kept₂, p.nextGeneration parents first = (.ok kept₁, p) ∧
          p.nextGeneration ((parents ++ first).pick kept₁) second = (.ok kept₂, p) ∧
          kept₂.map (origin kept₁ (parents.size + first.size)) = kept := by
  obtain ⟨htwo, hstarted⟩ := isReady_of_reachable hp
  have hstarted : p.started = true := hstarted (Option.some_ne_none dim)
  have hpos : 0 < p.settings.populationSize := Nat.lt_of_lt_of_le Nat.zero_lt_two htwo
  have hrows {first : FitnessMatrix Binary64} (hfirst : ∀ row ∈ first, row.length = 1) :
      ∀ row ∈ parents ++ first, row.length = 1 := fun row hrow =>
    (Array.mem_append.1 hrow).elim (hparents row) (hfirst row)
  have htop := isTopOf_fittestFirst (parents ++ children) p.settings.populationSize
  have hmem (k : Nat) : k ∈ List.range (parents ++ children).size
      ↔ k < parents.size + children.size := by
    rw [List.mem_range, Array.size_append]
  refine ⟨_, nextGeneration_eq_ok hstarted hpos hsize (hrows hchildren), ?_,
    htop.nodup List.nodup_range, fun i hi => (hmem i).1 (htop.subperm.subset hi), htop.pairwise,
    fun i hi k hk hnot => ?_, fun first second hsplit => ?_⟩
  · rw [htop.length_eq, List.length_range, Array.size_append, hsize]
    exact Nat.min_eq_left (Nat.le_add_right _ _)
  · exact (htop.before_of_not_mem i hi k ((hmem k).2 hk) hnot).asymm
  · subst hsplit
    have hfirst : ∀ row ∈ first, row.length = 1 := fun row hrow =>
      hchildren row (Array.mem_append.2 (Or.inl hrow))
    have hsecond : ∀ row ∈ second, row.length = 1 := fun row hrow =>
      hchildren row (Array.mem_append.2 (Or.inr hrow))
    have hle : p.settings.populationSize ≤ (parents ++ first).size := by
      rw [Array.size_append, hsize]
      exact Nat.le_add_right _ _
    obtain ⟨hsize₁, hparents₁⟩ := pick_fittestFirst hle (hrows hfirst)
    refine ⟨_, _, nextGeneration_eq_ok hstarted hpos hsize (hrows hfirst),
      nextGeneration_eq_ok hstarted hpos hsize₁ fun row hrow => ?_, ?_⟩
    · exact (Array.mem_append.1 hrow).elim (hparents₁ row) (hsecond row)
    · rw [← Array.size_append, ← Array.append_assoc]
      exact map_origin_fittestFirst (parents ++ first) second p.settings.populationSize

/-- Three members with the fitness `1`, `5` and `3`. -/
def threeMembers : FitnessMatrix Binary64 :=
  #[[⟨0x3ff0000000000000⟩], [⟨0x4014000000000000⟩], [⟨0x4008000000000000⟩]]

/-- A child with the fitness `4`. -/
def firstChild : FitnessMatrix Binary64 :=
  #[[⟨0x4010000000000000⟩]]

/-- Two more with the fitness `0` and `5`. -/
def laterChildren : FitnessMatrix Binary64 :=
  #[[⟨0x0000000000000000⟩], [⟨0x4014000000000000⟩]]

/-- Settings for a population of three. -/
def threeSettings : Settings :=
  { populationSize := 3, seed := some 5 }

/-- The policy of the three members. -/
def threePolicy : SingleObjective :=
  (start threeMembers ⟨threeSettings, ⟨5⟩, false⟩).2

/-- Of the three members and the three children the same are kept, whether the children come
at once or in two batches. -/
theorem threePolicy_keeps_fittest :
    (Policy.singleObjective threePolicy : Policy Binary64).Reachable (some 1) ∧
      ∃ kept kept₁ kept₂,
        threePolicy.nextGeneration threeMembers (firstChild ++ laterChildren)
          = (.ok kept, threePolicy) ∧
        kept.length = 3 ∧ kept.Nodup ∧
        kept.Pairwise (Precedes (threeMembers ++ (firstChild ++ laterChildren))) ∧
        threePolicy.nextGeneration threeMembers firstChild = (.ok kept₁, threePolicy) ∧
        threePolicy.nextGeneration ((threeMembers ++ firstChild).pick kept₁) laterChildren
          = (.ok kept₂, threePolicy) ∧
        kept₂.map (origin kept₁ 4) = kept := by
  have hcreated : Policy.ofObjectiveCount 1 threeSettings ⟨0⟩
      = .ok ((Policy.singleObjective ⟨threeSettings, ⟨5⟩, false⟩ : Policy Binary64), ⟨0⟩) := rfl
  have hreachable : (Policy.singleObjective threePolicy : Policy Binary64).Reachable (some 1) :=
    .start (.ofObjectiveCount hcreated) threeMembers (by decide +kernel)
  obtain ⟨kept, hkept, hlength, hnodup, -, hsorted, -, hsplit⟩ := @nextGeneration_keeps_fittest
    threePolicy threeMembers (firstChild ++ laterChildren) _ 1 hreachable (by decide +kernel)
    (by decide +kernel) (by decide +kernel)
  obtain ⟨kept₁, kept₂, hkept₁, hkept₂, htraced⟩ := hsplit firstChild laterChildren rfl
  exact ⟨hreachable, kept, kept₁, kept₂, hkept, hlength.trans (by decide +kernel), hnodup,
    hsorted, hkept₁, hkept₂, htraced⟩

/-- The parent with the fitness `5` comes before the child that is as fit. -/
example : (threePolicy.nextGeneration threeMembers (firstChild ++ laterChildren)).1
    = .ok [1, 5, 3] := by decide +kernel

end SingleObjective

end ParetoSelection
