import ParetoSelection.Proofs.ConeTree.Build
import ParetoSelection.Proofs.Nsga3.Estimates
import ParetoSelection.Proofs.Nsga3.Outcome

/-!
# What is true of a run at every moment

The parts of a run fit together: estimates, directions, niche counts and members are
over the same objectives and the same directions, and there are as many members as the
settings ask for (`Run.IsWellFormed`). A first population establishes this, and a
generation keeps it (`isInvariant_isWellFormed`), also one that ends early: the
estimates and the niche counts are then those of the generation, while the members are
the ones before. That does no harm, because what ties these parts together are the
directions, and no generation changes them.

Values may be anything, and dominance may run in circles, so that a generation does end
early.
-/

namespace ParetoSelection

variable {α : Type} [Scalar α]

namespace Nsga3

/-! ## Directions -/

/-- Every direction has a coordinate for every objective. -/
theorem length_of_mem_directions {settings : Settings} {dim : Nat} {t : ConeTree α}
    (h : directionTree settings dim = .ok t) : ∀ p ∈ t.points, p.length = dim := by
  obtain ⟨n, -, hbuilt⟩ := of_directionTree_eq_ok h
  have hperm := ConeTree.points_perm_of_ofPoints_eq_ok hbuilt
  intro p hp
  obtain ⟨q, hq, rfl⟩ := List.mem_map.1 (hperm.subset (Array.mem_toList_iff.2 hp))
  rw [length_normalized, SimplexLattice.length_of_mem_points hq]

/-- **There is room for the directions** of a run: its division count, given or chosen,
is that of a lattice which a table can hold. -/
def HasRoom (settings : Settings) (dim : Nat) : Prop :=
  ∀ n, SimplexLattice.divisionCount dim settings.populationSize settings.divisions = .ok n →
    SimplexLattice.size dim n ≤ SimplexLattice.maxPoints

/-- **Directions that there is room for are laid out.** -/
theorem directionTree_eq_ok {settings : Settings} {dim : Nat} (hdim : 2 ≤ dim)
    (hdivisions : settings.divisions ≠ some 0) (hroom : HasRoom settings dim) :
    ∃ t : ConeTree α, directionTree settings dim = .ok t := by
  obtain ⟨n, hcount⟩ :=
    SimplexLattice.exists_divisionCount hdim settings.populationSize hdivisions
  have hpos := Nat.zero_lt_of_lt hdim
  have hne := SimplexLattice.points_ne_nil (α := α) hpos
    (SimplexLattice.of_divisionCount_eq_ok hcount).2
  have hlength : ∀ p ∈ (SimplexLattice.points dim n).map (normalized (α := α)),
      p.length = dim := by
    intro p hp
    obtain ⟨q, hq, rfl⟩ := List.mem_map.1 hp
    rw [length_normalized, SimplexLattice.length_of_mem_points hq]
  refine ⟨{ root := ConeTree.nodeOf ((SimplexLattice.points dim n).map normalized) }, ?_⟩
  unfold directionTree
  rw [SimplexLattice.directions_eq_ok hcount (hroom n hcount)]
  exact congrArg (Except.mapError Failure.error)
    (ConeTree.ofPoints_eq_ok (mt List.map_eq_nil_iff.1 hne) hpos hlength)

/-- **A first population that passes the checks is taken**, if there is room for its
directions. -/
theorem start_eq_ok {m : FitnessMatrix α} {p : Nsga3 α} (hcheck : checkStart m p = .ok ())
    (hdivisions : p.settings.divisions ≠ some 0) (hroom : HasRoom p.settings m.width) :
    (p.start m).1 = .ok () := by
  obtain ⟨-, hwidth, -⟩ := of_checkStart_eq_ok hcheck
  obtain ⟨t, htree⟩ := directionTree_eq_ok (α := α) hwidth hdivisions hroom
  unfold start Run.ofPopulation
  rw [hcheck, htree]
  have hlt := Association.direction_lookUp_lt (isSearchable_directionTree htree)
    ((Estimates.before m).update m) m (m.rankWith p.settings.strategy).ranks
    (m.rankWith p.settings.strategy).ordered
  have htotal := Association.requireTotal_eq_ok hlt (m.rankWith p.settings.strategy).ordered
  dsimp only [Except.mapError, bind, Except.bind]
  rw [htotal]

/-! ## Generations -/

variable {σ : Type} {draw : Nat → σ → Nat × σ}

/-- **What becomes of the members in a generation**: if it ends early they stay, and
otherwise they are its survivors, as many as asked for and none from behind the cut. -/
theorem Run.advance_cases (hdraw : ∀ n source, 0 < n → (draw n source).1 < n)
    (settings : Settings) (combined : FitnessMatrix α) (r : Run α) (source : σ) :
    (∃ cause, (r.advance draw settings combined source).1 = .error (.violation cause)
        ∧ (r.advance draw settings combined source).2.1.members = r.members)
      ∨ ∃ kept, (r.advance draw settings combined source).1 = .ok kept
        ∧ kept.length = settings.populationSize
        ∧ (∀ i ∈ kept, i ∈ (combined.rankWith settings.strategy).complete settings.populationSize
            ++ (combined.rankWith settings.strategy).overflowing settings.populationSize)
        ∧ (r.advance draw settings combined source).2.1.members
          = (kept.map (r.candidate settings combined)).toArray := by
  unfold Run.advance Run.candidate
  dsimp only
  generalize combined.rankWith settings.strategy = ranked
  have hfits := ranked.length_complete_le settings.populationSize
  split
  · exact .inl ⟨_, rfl, rfl⟩
  · split
    · exact .inl ⟨_, rfl, rfl⟩
    · rename_i s rest hfill
      obtain ⟨taken, hlen, hkept, hperm, -⟩ := Niching.fill_invariant hdraw
        (P := fun _ _ => True) (fun _ _ _ _ => trivial) [] trivial hfill
      dsimp only at hkept hperm
      refine .inr ⟨s.survivors, rfl, ?_, fun i hi => ?_, rfl⟩
      · rw [hkept, List.length_append, hlen]
        omega
      · rw [hkept] at hi
        obtain hi | hi := List.mem_append.1 hi
        · exact List.mem_append_left _ hi
        · exact List.mem_append_right _ (hperm.subset (List.mem_append_left _ hi))

/-! ## The invariant -/

/-- **A run that fits together**, over a number of objectives. -/
structure Run.IsWellFormed (settings : Settings) (dim : Nat) (r : Run α) : Prop where
  /-- There are two objectives at least. -/
  two_le_dim : 2 ≤ dim
  /-- Ideal and nadir have a coordinate for every objective, and for every objective there
  is an extreme point, which has one as well. -/
  hasShape : r.estimates.HasShape dim
  /-- The directions are those that the settings ask for. -/
  directionTree_eq : directionTree settings dim = .ok r.directions
  /-- There is a niche count for every direction. -/
  size_nicheCounts : r.nicheCounts.size = r.directions.size
  /-- There are as many members as the settings ask for. -/
  size_members : r.members.size = settings.populationSize
  /-- Every member has one of the directions. -/
  direction_lt : ∀ a ∈ r.members, a.direction < r.directions.size

/-- **Every run fits together**, over the objectives of its first population. -/
theorem isInvariant_isWellFormed [SplitMix.Sampler] (settings : Settings) :
    Session.IsInvariant settings fun past (r : Run α) => r.IsShaped past
      ∧ ∃ m, past.head? = some m ∧ r.dim = m.width ∧ r.IsWellFormed settings m.width where
  opening {m r} hsize hcount hwidth hr := by
    have hshaped := (isInvariant_isShaped settings).opening hsize hcount hwidth hr
    obtain ⟨hne, -, hrows⟩ := FitnessMatrix.of_objectiveCount_eq_ok hcount
    obtain ⟨hdim, hsearchable, hcounts⟩ := Run.ofPopulation_eq_ok hr hne hrows
    obtain ⟨htree, -, hmembers, -⟩ := Run.of_ofPopulation_eq_ok hr
    refine ⟨hshaped, m, rfl, hdim, hwidth, hdim ▸ hshaped.hasShape, htree, hcounts, ?_, ?_⟩
    · rw [hmembers, Association.size_table, size_rankWith, hsize]
    · intro a ha
      obtain ⟨i, hi, rfl⟩ := Array.mem_iff_getElem.1 ha
      have hlt := Association.direction_lookUp_lt hsearchable r.estimates m
        (m.rankWith settings.strategy).ranks (m.rankWith settings.strategy).ordered i
      rw [← hmembers, Association.lookUp, Array.getD_eq_getD_getElem?,
        Array.getElem?_eq_getElem hi, Option.getD_some] at hlt
      exact hlt
  generation {past r parents children} g h hsize hcount := by
    obtain ⟨hshaped, m, hhead, hdim, hr⟩ := h
    have hshaped' := (isInvariant_isShaped settings).generation g hshaped hsize hcount
    obtain ⟨hne, -, hrows⟩ := FitnessMatrix.of_objectiveCount_eq_ok hcount
    obtain ⟨hdirections, hestimates⟩ :=
      Run.advance_frame SplitMix.below settings (parents ++ children) r g
    have hshape := hr.hasShape.update (Nat.zero_lt_of_lt hr.two_le_dim) hne (hdim ▸ hrows)
    rw [← hestimates] at hshape
    have hmembers : (r.advance SplitMix.below settings (parents ++ children) g).2.1.members.size
          = settings.populationSize
        ∧ ∀ a ∈ (r.advance SplitMix.below settings (parents ++ children) g).2.1.members,
          a.direction < r.directions.size := by
      obtain ⟨-, -, hmembers⟩ | ⟨kept, -, hlen, -, hmembers⟩ := Run.advance_cases
        (fun _ g hn => SplitMix.below_lt hn g) settings (parents ++ children) r g
      · rw [hmembers]
        exact ⟨hr.size_members, hr.direction_lt⟩
      · rw [hmembers, List.size_toArray, List.length_map]
        refine ⟨hlen, fun a ha => ?_⟩
        obtain ⟨i, -, rfl⟩ := List.mem_map.1 (List.mem_toArray.1 ha)
        exact Association.direction_lookUp_lt (isSearchable_directionTree hr.directionTree_eq)
          _ _ _ _ i
    refine ⟨hshaped', m, ?_, hshape.length_ideal, hr.two_le_dim, hshape, ?_, ?_, hmembers.1, ?_⟩
    · rw [List.head?_append, hhead, Option.some_or]
    · rw [hdirections]
      exact hr.directionTree_eq
    · rw [Run.size_nicheCounts_advance, hdirections]
    · rw [hdirections]
      exact hmembers.2

end Nsga3

end ParetoSelection
