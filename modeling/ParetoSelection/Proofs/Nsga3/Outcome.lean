import ParetoSelection.Proofs.Binary64.Reading
import ParetoSelection.Proofs.Nsga3.Evenness
import ParetoSelection.Proofs.Policy.Reachable
import ParetoSelection.Proofs.Policy.Survivors

/-!
# What a generation of NSGA-III can come to

A generation draws at random, so it has not one outcome but many. `IsOutcome` is
all of them: survivors and the run after them that *some* draws in range lead to,
from a source of any kind. The generator of the policy is one such source in each
of its states (`isOutcome_nextGeneration`).

What all outcomes share is that the front at the cut is filled in fairly
(`isFairFilling_of_isOutcome`): a direction that received a candidate of the front
has at most one member more than a direction that could have received another one,
and a candidate that was taken has nobody before it that is closer to the same
direction. Distances may be anything, NaN included.
-/

namespace ParetoSelection

variable {α : Type}

namespace Niching

/-- **A fair filling** of a population with the fronts that fit and with members of
the one that does not. -/
structure IsFairFilling [Scalar α] (assoc : Nat → Association α)
    (complete overflowing kept : List Nat) : Prop where
  /-- No survivor is listed twice. -/
  nodup : kept.Nodup
  /-- The fronts that fit survive. -/
  complete_subset : ∀ i ∈ complete, i ∈ kept
  /-- All others come from the front that does not fit. -/
  mem_or_mem : ∀ i ∈ kept, i ∈ complete ∨ i ∈ overflowing
  /-- A direction that a candidate of the front was taken for has at most one member
  more than a direction with a candidate of the front that was not taken. -/
  occupancy_le : ∀ i ∈ overflowing, i ∈ kept → ∀ j ∈ overflowing, j ∉ kept →
    occupancy assoc kept (assoc i).direction ≤ occupancy assoc kept (assoc j).direction + 1
  /-- No candidate of the front that was not taken is closer to its direction than
  one that was. -/
  not_closer : ∀ i ∈ overflowing, i ∈ kept → ∀ j ∈ overflowing, j ∉ kept →
    (assoc i).direction = (assoc j).direction → ¬ (assoc j).distance < (assoc i).distance

/-- **Filling is fair**, if it starts with true counts and nobody is listed twice. -/
theorem isFairFilling_fill [Scalar α] {assoc : Nat → Association α} (irrefl : ∀ a : α, ¬ a < a)
    (trans : ∀ a b c : α, a < b → b < c → a < c) {complete overflowing : List Nat}
    (hnodup : (complete ++ overflowing).Nodup) {counts : Array Nat}
    (hlt : ∀ i, (assoc i).direction < counts.size)
    (hcounts : ∀ d < counts.size, count counts d = occupancy assoc complete d) {σ : Type}
    {draw : Nat → σ → Nat × σ} (hdraw : ∀ n source, 0 < n → (draw n source).1 < n)
    {places : Nat} {s : Niching} {source source' : σ}
    (hfill : fill assoc draw places
      ⟨complete, overflowing, initialPool assoc counts overflowing, counts⟩ source
        = (.ok (), s, source')) :
    IsFairFilling assoc complete overflowing s.survivors
      ∧ s.survivors.length = complete.length + places := by
  obtain ⟨taken, hlen, hkept, hperm, heven, hclosest⟩ :=
    isEven_fill hdraw irrefl trans (isEven_initialPool hlt hcounts overflowing) hfill
  dsimp only at hkept hperm
  rw [hkept]
  obtain ⟨hcomplete, hfront, hdisjoint⟩ := List.nodup_append'.1 hnodup
  have hsub : ∀ i ∈ taken, i ∈ overflowing := fun i hi =>
    hperm.subset (List.mem_append_left _ hi)
  -- a member of the front was taken or is left
  have htaken : ∀ i ∈ overflowing, i ∈ complete ++ taken → i ∈ taken := by
    intro i hi hkept
    refine (List.mem_append.1 hkept).resolve_left fun hmem => ?_
    exact List.disjoint_left.1 hdisjoint hmem hi
  have hleft : ∀ j ∈ overflowing, j ∉ complete ++ taken → j ∈ s.remaining := by
    intro j hj hnot
    refine (List.mem_append.1 (hperm.mem_iff.2 hj)).resolve_left fun hmem => ?_
    exact hnot (List.mem_append_right _ hmem)
  refine ⟨⟨?_, ?_, ?_, ?_, ?_⟩, by rw [List.length_append, hlen]⟩
  · refine List.nodup_append'.2 ⟨hcomplete, ?_, ?_⟩
    · exact (hperm.nodup_iff.2 hfront).sublist (List.sublist_append_left _ _)
    · exact fun i hi htaken => hdisjoint hi (hsub i htaken)
  · exact fun i hi => List.mem_append_left _ hi
  · exact fun i hi => (List.mem_append.1 hi).imp_right (hsub i)
  · intro i hi hki j hj hkj
    have hd := (heven.consistent.mem_pool _).2 ⟨j, hleft j hj hkj, rfl⟩
    rw [← hkept]
    exact heven.occupancy_le i (htaken i hi hki) _ hd
  · exact fun i hi hki j hj hkj => hclosest i (htaken i hi hki) j (hleft j hj hkj)

end Niching

namespace Nsga3

variable [Scalar α]

/-! ## The candidates of a generation -/

/-- **What a generation knows of a candidate** of `combined`. -/
def Run.candidate (settings : Settings) (combined : FitnessMatrix α) (r : Run α) (i : Nat) :
    Association α :=
  let ranked := combined.rankWith settings.strategy
  Association.lookUp
    (Association.table (r.estimates.update combined) r.directions combined ranked.ranks
      (ranked.complete settings.populationSize ++ ranked.overflowing settings.populationSize)) i

/-- **How many members of a run have a direction.** -/
def Run.occupancy (r : Run α) (d : Nat) : Nat :=
  r.members.countP fun a => a.direction = d

omit [Scalar α] in
/-- The members of a run that are the survivors are counted among the survivors. -/
theorem Run.occupancy_eq {assoc : Nat → Association α} {r : Run α} {kept : List Nat}
    (h : r.members = (kept.map assoc).toArray) (d : Nat) :
    r.occupancy d = Niching.occupancy assoc kept d := by
  unfold Run.occupancy Niching.occupancy
  rw [h, List.countP_toArray, List.countP_map]
  rfl

/-- The niche counts of members are their numbers by direction. -/
theorem count_nicheCounts {table : Array (Association α)} {directions : Nat}
    (members : List Nat) {d : Nat} (hd : d < directions) :
    Niching.count (Association.nicheCounts table directions members) d
      = Niching.occupancy (Association.lookUp table) members d := by
  unfold Niching.count Association.nicheCounts
  rw [Array.getD_eq_getD_getElem?, List.getElem?_toArray, List.getElem?_map,
    List.getElem?_range hd]
  rfl

/-- Every candidate of a generation has one of the directions of the run. -/
theorem Run.direction_candidate_lt {r : Run α} (hr : r.directions.IsSearchable)
    (settings : Settings) (combined : FitnessMatrix α) (i : Nat) :
    (r.candidate settings combined i).direction < r.directions.size :=
  Association.direction_lookUp_lt hr _ _ _ _ i

/-- **What a generation that has survivors has done**: it has counted the members of the
fronts that fit, and filled the places that they leave free. -/
theorem Run.of_advance_eq_ok {σ : Type} {draw : Nat → σ → Nat × σ} {settings : Settings}
    {combined : FitnessMatrix α} {r after : Run α} (hr : r.directions.IsSearchable)
    {source rest : σ} {kept : List Nat}
    (h : r.advance draw settings combined source = (.ok kept, after, rest)) :
    ∃ counts s, counts.size = r.directions.size
      ∧ (∀ d < counts.size, Niching.count counts d = Niching.occupancy
          (r.candidate settings combined)
          ((combined.rankWith settings.strategy).complete settings.populationSize) d)
      ∧ Niching.fill (r.candidate settings combined) draw
          (settings.populationSize
            - ((combined.rankWith settings.strategy).complete settings.populationSize).length)
          ⟨(combined.rankWith settings.strategy).complete settings.populationSize,
            (combined.rankWith settings.strategy).overflowing settings.populationSize,
            Niching.initialPool (r.candidate settings combined) counts
              ((combined.rankWith settings.strategy).overflowing settings.populationSize),
            counts⟩ source = (.ok (), s, rest)
      ∧ s.survivors = kept
      ∧ after = ⟨r.estimates.update combined, r.directions, s.counts,
          (kept.map (r.candidate settings combined)).toArray⟩ := by
  have hlt := r.direction_candidate_lt hr settings combined
  unfold Run.advance at h
  unfold Run.candidate at hlt ⊢
  generalize combined.rankWith settings.strategy = ranked at h hlt ⊢
  dsimp only at h hlt ⊢
  generalize Association.table (r.estimates.update combined) r.directions combined ranked.ranks
    (ranked.complete settings.populationSize ++ ranked.overflowing settings.populationSize)
    = table at h hlt ⊢
  have hsize := Association.size_nicheCounts table r.directions.size
    (ranked.complete settings.populationSize)
  rw [Association.requireTotal_eq_ok hlt] at h
  dsimp only at h
  split at h
  · cases congrArg (·.1) h
  · rename_i s rest' hfill
    obtain ⟨hkept, hafter, rfl⟩ :
        Except.ok s.survivors = Except.ok kept ∧ _ = after ∧ rest' = rest :=
      (Prod.mk.inj h).imp_right Prod.mk.inj
    obtain rfl := Except.ok.inj hkept
    exact ⟨_, s, hsize, fun d hd => count_nicheCounts _ (by rwa [hsize] at hd), hfill, rfl,
      hafter.symm⟩

/-- **Survivors are a fair filling**, and the run after them has their associations,
for any source of draws in range. -/
theorem Run.isFairFilling_advance (irrefl : ∀ a : α, ¬ a < a)
    (trans : ∀ a b c : α, a < b → b < c → a < c) {σ : Type} {draw : Nat → σ → Nat × σ}
    (hdraw : ∀ n source, 0 < n → (draw n source).1 < n) {settings : Settings}
    {combined : FitnessMatrix α} {r after : Run α} (hr : r.directions.IsSearchable)
    (hnodup : (combined.rankWith settings.strategy).ordered.Nodup) {source rest : σ}
    {kept : List Nat}
    (h : r.advance draw settings combined source = (.ok kept, after, rest)) :
    after.members = (kept.map (r.candidate settings combined)).toArray
      ∧ kept.length = settings.populationSize
      ∧ Niching.IsFairFilling (r.candidate settings combined)
          ((combined.rankWith settings.strategy).complete settings.populationSize)
          ((combined.rankWith settings.strategy).overflowing settings.populationSize) kept := by
  obtain ⟨counts, s, hsize, hcounts, hfill, rfl, rfl⟩ := Run.of_advance_eq_ok hr h
  have hcut := hnodup.sublist (RankedFronts.complete_append_overflowing_prefix
    (combined.rankWith settings.strategy) settings.populationSize).sublist
  have hlt := r.direction_candidate_lt hr settings combined
  obtain ⟨hfair, hlen⟩ :=
    Niching.isFairFilling_fill irrefl trans hcut (by rwa [hsize]) hcounts hdraw hfill
  refine ⟨rfl, ?_, hfair⟩
  rw [hlen, Nat.add_sub_cancel' (RankedFronts.length_complete_le _ _)]

/-! ## Outcomes -/

/-- **What a generation can come to**: the survivors and the run after them that
draws in range lead to, from whatever source. -/
inductive IsOutcome (p : Nsga3 α) (parents children : FitnessMatrix α) (kept : List Nat)
    (after : Run α) : Prop where
  /-- The generation passes its checks, and its survivors are found. -/
  | intro {σ : Type} (draw : Nat → σ → Nat × σ)
      (in_range : ∀ n source, 0 < n → (draw n source).1 < n) (source rest : σ) {r : Run α}
      {combined : FitnessMatrix α} (checked : checkNext parents children p = .ok (r, combined))
      (advanced : r.advance draw p.settings combined source = (.ok kept, after, rest))

/-- **The generator leads to an outcome**, in whatever state it is. -/
theorem isOutcome_nextGeneration [SplitMix.Sampler] {p : Nsga3 α}
    {parents children : FitnessMatrix α} (g : SplitMix) {kept : List Nat}
    (h : ({ p with generator := g }.nextGeneration parents children).1 = .ok kept) :
    ∃ after, ({ p with generator := g }.nextGeneration parents children).2.run = some after
      ∧ p.IsOutcome parents children kept after := by
  unfold nextGeneration at h ⊢
  have hcheck : checkNext parents children { p with generator := g }
      = checkNext parents children p := rfl
  rw [hcheck] at h ⊢
  cases hchecked : checkNext parents children p with
  | error e =>
    rw [hchecked] at h
    cases h
  | ok checked =>
    obtain ⟨r, combined⟩ := checked
    rw [hchecked] at h
    refine ⟨_, rfl, .intro SplitMix.below (fun _ g hn => SplitMix.below_lt hn g) g
      (r.advance SplitMix.below p.settings combined g).2.2 hchecked ?_⟩
    exact Prod.ext h rfl

/-- A policy that has taken a first population has a run. -/
theorem exists_run_of_reachable [SplitMix.Sampler] {p : Nsga3 α} {dim : Nat}
    (h : (Policy.nsga3 p).Reachable (some dim)) : ∃ r, p.run = some r := by
  cases h.isSound with
  | nsga3 _ initialized =>
    obtain ⟨-, r, hrun, -⟩ := initialized dim rfl
    exact ⟨r, hrun⟩

/-- The run of a policy that requests lead to has at least two objectives, and
directions to search in. -/
theorem two_le_dim_of_reachable [SplitMix.Sampler] {p : Nsga3 α} {dim : Nat}
    (h : (Policy.nsga3 p).Reachable (some dim)) {r : Run α} (hrun : p.run = some r) :
    2 ≤ r.dim ∧ r.directions.IsSearchable := by
  cases h.isSound with
  | nsga3 _ initialized =>
    obtain ⟨htwo, r', hrun', rfl, hr, -⟩ := initialized dim rfl
    obtain rfl := Option.some.inj (hrun.symm.trans hrun')
    exact ⟨htwo, hr⟩

/-- An outcome of a policy that requests lead to fills in the front at the cut
fairly; its members have the directions of the run, which stay as they are. -/
theorem IsOutcome.isFairFilling [SplitMix.Sampler] {p : Nsga3 Binary64} {dim : Nat}
    (h : (Policy.nsga3 p).Reachable (some dim)) {r : Run Binary64} (hrun : p.run = some r)
    {parents children : FitnessMatrix Binary64} {kept : List Nat} {after : Run Binary64}
    (houtcome : p.IsOutcome parents children kept after) :
    after.directions = r.directions
      ∧ (∀ i, (r.candidate p.settings (parents ++ children) i).direction < r.directions.size)
      ∧ after.members = (kept.map (r.candidate p.settings (parents ++ children))).toArray
      ∧ kept.length = p.settings.populationSize
      ∧ Niching.IsFairFilling (r.candidate p.settings (parents ++ children))
          (((parents ++ children).rankWith p.settings.strategy).complete
            p.settings.populationSize)
          (((parents ++ children).rankWith p.settings.strategy).overflowing
            p.settings.populationSize)
          kept := by
  obtain ⟨draw, hdraw, source, rest, hchecked, hadvanced⟩ := houtcome
  obtain ⟨hrun', rfl, -⟩ := of_checkNext_eq_ok hchecked
  obtain rfl := Option.some.inj (hrun.symm.trans hrun')
  obtain ⟨-, hr⟩ := two_le_dim_of_reachable h hrun
  have hframe := (Run.advance_frame draw p.settings (parents ++ children) r source).1
  rw [hadvanced] at hframe
  obtain ⟨hmembers, hlen, hfair⟩ := Run.isFairFilling_advance Binary64.not_lt_self
    (fun _ _ _ => Binary64.lt_of_lt_of_lt) hdraw hr nodup_ordered_rankWith hadvanced
  exact ⟨hframe, r.direction_candidate_lt hr _ _, hmembers, hlen, hfair⟩

/-- **Every outcome is a fair filling.** The policy is in a state that requests lead
to; then its generator leads to an outcome from any state in which the generation is
granted, and in every outcome the associations of the survivors become those of the
members, and the front at the cut has been filled in fairly. -/
theorem isFairFilling_of_isOutcome [SplitMix.Sampler] {p : Nsga3 Binary64} {dim : Nat}
    (h : (Policy.nsga3 p).Reachable (some dim)) (parents children : FitnessMatrix Binary64) :
    (∀ g kept, ({ p with generator := g }.nextGeneration parents children).1 = .ok kept →
        ∃ after, ({ p with generator := g }.nextGeneration parents children).2.run = some after
          ∧ p.IsOutcome parents children kept after)
      ∧ ∀ kept after, p.IsOutcome parents children kept after →
        ∃ r, p.run = some r
          ∧ after.members = (kept.map (r.candidate p.settings (parents ++ children))).toArray
          ∧ Niching.IsFairFilling (r.candidate p.settings (parents ++ children))
              (((parents ++ children).rankWith p.settings.strategy).complete
                p.settings.populationSize)
              (((parents ++ children).rankWith p.settings.strategy).overflowing
                p.settings.populationSize)
              kept := by
  refine ⟨fun g kept => isOutcome_nextGeneration g, fun kept after houtcome => ?_⟩
  obtain ⟨r, hrun⟩ := exists_run_of_reachable h
  obtain ⟨-, -, hmembers, -, hfair⟩ := houtcome.isFairFilling h hrun
  exact ⟨r, hrun, hmembers, hfair⟩

/-- Settings for a population of three, which has three directions if there are two
objectives. -/
def trioSettings : Settings :=
  { populationSize := 3, seed := some 7 }

/-- Three members: two of the first direction, and one of the last. -/
def trio : FitnessMatrix Binary64 :=
  #[[⟨0x4014000000000000⟩, ⟨0x3ff0000000000000⟩], [⟨0x4012000000000000⟩, ⟨0x3ff8000000000000⟩],
    [⟨0x3ff0000000000000⟩, ⟨0x4014000000000000⟩]]

/-- A child of the last direction. Nobody among the four dominates another one. -/
def fourth : FitnessMatrix Binary64 :=
  #[[⟨0x3ff8000000000000⟩, ⟨0x4012000000000000⟩]]

/-- The policy of the three members. -/
def trioPolicy : Nsga3 Binary64 :=
  (start trio ⟨trioSettings, ⟨7⟩, none⟩).2

/-- It is a policy that requests lead to. -/
theorem reachable_trioPolicy : (Policy.nsga3 trioPolicy).Reachable (some 2) := by
  have hcreated : Policy.ofObjectiveCount 2 trioSettings ⟨0⟩
      = .ok ((Policy.nsga3 ⟨trioSettings, ⟨7⟩, none⟩ : Policy Binary64), ⟨0⟩) := rfl
  exact .start (.ofObjectiveCount hcreated) trio (by decide +kernel)

/-- From the generator's state zero the first direction gets both of its candidates,
and the last direction one of two. -/
theorem trioPolicy_isFairFilling :
    (Policy.nsga3 trioPolicy).Reachable (some 2)
      ∧ ∃ after r, trioPolicy.IsOutcome trio fourth [2, 0, 1] after ∧ trioPolicy.run = some r
        ∧ (List.range 3).map after.occupancy = [2, 0, 1]
        ∧ Niching.IsFairFilling (r.candidate trioSettings (trio ++ fourth)) [] [0, 1, 2, 3]
            [2, 0, 1] := by
  obtain ⟨hgenerator, hfair⟩ := isFairFilling_of_isOutcome reachable_trioPolicy trio fourth
  obtain ⟨after, hafter, houtcome⟩ := hgenerator ⟨0⟩ [2, 0, 1] (by decide +kernel)
  have hoccupancy : ({ trioPolicy with generator := ⟨0⟩ }.nextGeneration trio fourth).2.run.map
      (fun r : Run Binary64 => (List.range 3).map r.occupancy) = some [2, 0, 1] := by decide +kernel
  obtain ⟨r, hrun, -, hr⟩ := hfair [2, 0, 1] after houtcome
  have hsettings : trioPolicy.settings = trioSettings := by decide +kernel
  have hfronts : (trio ++ fourth).rankWith trioSettings.strategy = ⟨4, [[0, 1, 2, 3]]⟩ := by
    decide +kernel
  rw [hafter] at hoccupancy
  rw [hsettings, hfronts] at hr
  exact ⟨reachable_trioPolicy, after, r, houtcome, hrun, Option.some.inj hoccupancy, hr⟩

end Nsga3

end ParetoSelection
