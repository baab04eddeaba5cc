import ParetoSelection.Proofs.Exact.Ball
import ParetoSelection.Proofs.Fronts.Survival
import ParetoSelection.Proofs.Nsga3.WellFormed

/-!
# Members have their nearest direction

A member of a population is associated with the direction that its normalized row has
the largest inner product with. Read with exact arithmetic, this is the direction whose
line the row is nearest to, and the distance that is kept is the distance to that line
(`isAssociated_run`).

The line through a vector goes both ways, and a row with a negative inner product may be
closer to it than one with a positive product. That the largest product means the smallest
distance is due to three facts. Directions have unit length, so that the squared distance is
what the squared product leaves of the squared length of the row
(`Exact.lineDistanceSq_of_norm_eq_one`). Their coordinates are not negative, as they come
from a simplex lattice (`SimplexLattice.exists_direction`). And neither are those of a
normalized row: the ideal has been raised to all rows of a generation before any of them is
associated (`Estimates.exists_normalized`). So no product is negative, and the largest one
has the largest square.
-/

namespace ParetoSelection

open Exact

open scoped InnerProductSpace

variable {n : ℕ}

namespace Exact

/-! ## Vectors without negative coordinates -/

/-- A point with real coordinates that are not negative is such a vector. -/
theorem exists_coords_nonneg {p : List EReal} (hlen : p.length = n)
    (h : ∀ x ∈ p, ∃ a : ℝ, 0 ≤ a ∧ x = a) :
    ∃ v : EuclideanSpace ℝ (Fin n), (∀ k, 0 ≤ v k) ∧ p = coords v := by
  obtain ⟨v, rfl⟩ := exists_coords hlen fun x hx => by
    obtain ⟨a, -, rfl⟩ := h x hx
    exact isReal_coe a
  refine ⟨v, fun k => ?_, rfl⟩
  obtain ⟨a, ha, heq⟩ := h (v k) (List.mem_ofFn.2 ⟨k, rfl⟩)
  rw [EReal.coe_eq_coe_iff.1 heq]
  exact ha

/-- Their inner products are not negative. -/
theorem inner_nonneg {a b : EuclideanSpace ℝ (Fin n)} (ha : ∀ k, 0 ≤ a k) (hb : ∀ k, 0 ≤ b k) :
    0 ≤ ⟪a, b⟫_ℝ := by
  rw [PiLp.inner_apply]
  exact Finset.sum_nonneg fun k _ => mul_nonneg (hb k) (ha k)

/-- **The larger product has the smaller distance**, for lines of unit length, unless the
smaller product is negative. -/
theorem lineDistanceSq_le_lineDistanceSq {l l' p : EuclideanSpace ℝ (Fin n)} (hl : ‖l‖ = 1)
    (hl' : ‖l'‖ = 1) (hnonneg : 0 ≤ ⟪l', p⟫_ℝ) (hle : ⟪l', p⟫_ℝ ≤ ⟪l, p⟫_ℝ) :
    lineDistanceSq (coords l) (coords p) ≤ lineDistanceSq (coords l') (coords p) := by
  rw [lineDistanceSq_of_norm_eq_one hl, lineDistanceSq_of_norm_eq_one hl']
  exact EReal.coe_le_coe_iff.2 (sub_le_sub_left (pow_le_pow_left₀ hnonneg hle 2) _)

end Exact

/-! ## Directions and normalized rows -/

/-- **A point of the lattice** is a vector without negative coordinates, and not zero, as
its numerators sum up to the number of divisions. -/
theorem SimplexLattice.exists_coords_of_mem_points {h : ℕ} {p : List EReal} (hp : p ∈ points n h) :
    ∃ v : EuclideanSpace ℝ (Fin n), v ≠ 0 ∧ (∀ k, 0 ≤ v k) ∧ p = coords v := by
  obtain ⟨hpos, c, hlen, hsum, rfl⟩ := exists_of_mem_points hp
  have hcoordinate (i : ℕ) : (Scalar.ofNat i / Scalar.ofNat h : EReal) = ((i / h : ℝ) : EReal) :=
    (EReal.coe_div _ _).symm
  obtain ⟨v, hnonneg, hv⟩ := exists_coords_nonneg ((List.length_map _).trans hlen) fun x hx => by
    obtain ⟨i, -, rfl⟩ := List.mem_map.1 hx
    exact ⟨i / h, by positivity, hcoordinate i⟩
  refine ⟨v, ?_, hnonneg, hv⟩
  rintro rfl
  refine hpos (hsum.symm.trans (List.sum_eq_zero fun i hi => ?_))
  have hzero : (Scalar.ofNat i / Scalar.ofNat h : EReal)
      ∈ coords (0 : EuclideanSpace ℝ (Fin n)) := by
    rw [← hv]
    exact List.mem_map_of_mem hi
  obtain ⟨k, hk⟩ := List.mem_ofFn.1 hzero
  have hquotient : (i / h : ℝ) = 0 := EReal.coe_eq_coe_iff.1 ((hcoordinate i).symm.trans hk.symm)
  exact Nat.cast_eq_zero.1 ((div_eq_zero_iff.1 hquotient).resolve_right (Nat.cast_ne_zero.2 hpos))

/-- **A direction is a vector of unit length** without negative coordinates. -/
theorem SimplexLattice.exists_direction {h : ℕ} {p : List EReal}
    (hp : p ∈ (points n h).map normalized) :
    ∃ l : EuclideanSpace ℝ (Fin n), ‖l‖ = 1 ∧ (∀ k, 0 ≤ l k) ∧ p = coords l := by
  obtain ⟨q, hq, rfl⟩ := List.mem_map.1 hp
  obtain ⟨v, hne, hnonneg, rfl⟩ := exists_coords_of_mem_points hq
  refine ⟨‖v‖⁻¹ • v, norm_smul_inv_norm hne, fun k => ?_, normalized_coords v⟩
  exact mul_nonneg (inv_nonneg.2 (norm_nonneg v)) (hnonneg k)

/-- **A normalized row is a vector without negative coordinates**, for estimates of rows
with real values. -/
theorem Estimates.exists_normalized {e : Estimates EReal} {seen : List (List EReal)}
    (hshape : e.HasShape n) (hover : e.IsOver id seen) (hseen : ArePoints IsReal n seen)
    {row : List EReal} (hrow : row ∈ seen) :
    ∃ p : EuclideanSpace ℝ (Fin n), (∀ k, 0 ≤ p k) ∧ e.normalize row = coords p := by
  obtain ⟨hlen, hreal⟩ := hseen row hrow
  refine exists_coords_nonneg (hshape.length_normalize hlen) fun x hx => ?_
  obtain ⟨k, hk, rfl⟩ := List.mem_iff_getElem.1 hx
  rw [hshape.length_normalize hlen] at hk
  have hk' : k < e.ideal.length := Nat.lt_of_lt_of_eq hk hshape.length_ideal.symm
  have hideal := (hover.ideal k hk').isKnown hseen hk
  have hnadir := (hover.nadir k hk').isKnown (fun p hp => hseen p (hover.extremes_subset hp)) hk
  have hvalue : IsReal (row.getD k 0) := by
    rw [List.getD_eq_getElem _ _ (Nat.lt_of_lt_of_eq hk hlen.symm)]
    exact hreal _ (List.getElem_mem _)
  have hle : row.getD k 0 ≤ e.ideal.getD k 0 := (hover.ideal k hk').key_le row hrow
  rw [← List.getD_eq_getElem _ 0, getD_normalize hshape hlen hk]
  -- the three values are real, so the quotient is one of real numbers
  rw [← EReal.coe_toReal hideal.1 hideal.2, ← EReal.coe_toReal hvalue.1 hvalue.2] at hle ⊢
  rw [← EReal.coe_toReal hnadir.1 hnadir.2]
  generalize (e.ideal.getD k 0).toReal = z at hle ⊢
  generalize (row.getD k 0).toReal = v at hle ⊢
  generalize (e.nadir.getD k 0).toReal = w
  have hdivisor : Scalar.maxNum ((z : EReal) - w) normalizationFloor
      = ((max (z - w) 1e-6 : ℝ) : EReal) := by
    rw [← maxNum_coe, EReal.coe_sub]
    rfl
  refine ⟨(z - v) / max (z - w) 1e-6, ?_, ?_⟩
  · exact div_nonneg (sub_nonneg.2 (EReal.coe_le_coe_iff.1 hle)) (by positivity)
  · rw [hdivisor, EReal.coe_div, EReal.coe_sub]

/-! ## Associations -/

section Nearest

variable {α : Type} [Scalar α]

/-- **An association with the nearest direction** for a row: the distance is that of the
normalized row to the line along the direction, and the line along no direction is
nearer. -/
structure Association.IsNearest (e : Estimates α) (directions : ConeTree α) (row : List α)
    (a : Association α) : Prop where
  /-- The direction is one of the directions. -/
  direction_lt : a.direction < directions.size
  /-- The distance is the one to its line. -/
  distance_eq : a.distance = lineDistanceSq (directions.point a.direction) (e.normalize row)
  /-- No line is nearer. -/
  distance_le : ∀ d < directions.size,
    a.distance ≤ lineDistanceSq (directions.point d) (e.normalize row)

/-- **The run of a population**: it has a member for every row, associated with the nearest
direction, where rows are normalized by the estimates of the run. -/
structure Nsga3.Run.IsAssociated (population : FitnessMatrix α) (r : Run α) : Prop where
  /-- There is a member for every row. -/
  size_members : r.members.size = population.size
  /-- Every member is associated with the direction nearest to its row. -/
  isNearest : ∀ i < population.size,
    (Association.lookUp r.members i).IsNearest r.estimates r.directions (population.row i)

end Nearest

/-- **The direction that is found is the nearest one**, for a row that the estimates are
of. -/
theorem Association.isNearest_ofRow {settings : Settings} {t : ConeTree EReal}
    (htree : Nsga3.directionTree settings n = .ok t) {e : Estimates EReal}
    {seen : List (List EReal)} (hshape : e.HasShape n) (hover : e.IsOver id seen)
    (hseen : ArePoints IsReal n seen) {row : List EReal} (hrow : row ∈ seen) (rank : ℕ) :
    (ofRow e t rank row).IsNearest e t row := by
  obtain ⟨h, -, hbuilt⟩ := Nsga3.of_directionTree_eq_ok htree
  have hdirection {d : ℕ} (hd : d < t.size) :
      ∃ l : EuclideanSpace ℝ (Fin n), ‖l‖ = 1 ∧ (∀ k, 0 ≤ l k) ∧ t.point d = coords l := by
    refine SimplexLattice.exists_direction (h := h) ?_
    exact (ConeTree.points_perm_of_ofPoints_eq_ok hbuilt).subset
      (Array.mem_toList_iff.2 (ConeTree.point_mem hd))
  have hpoints : ArePoints IsReal n ((SimplexLattice.points n h).map normalized) := fun p hp => by
    obtain ⟨l, -, -, rfl⟩ := SimplexLattice.exists_direction hp
    exact ⟨length_coords l, fun x hx => isReal_of_mem_coords hx⟩
  obtain ⟨p, hnonneg, hp⟩ := Estimates.exists_normalized hshape hover hseen hrow
  have hfound := (ConeTree.isSearchable_ofPoints hbuilt).index_find_lt (e.normalize row)
  refine ⟨hfound, rfl, fun d hd => ?_⟩
  obtain ⟨l, hl, -, hpoint⟩ := hdirection hfound
  obtain ⟨l', hl', hnonneg', hpoint'⟩ := hdirection hd
  have hle := dot_le_dot_find hpoints hbuilt p hd
  rw [← hp, hpoint, hpoint', hp, dot_coords, dot_coords, EReal.coe_le_coe_iff,
    real_inner_comm, real_inner_comm l] at hle
  show lineDistanceSq (t.point (t.find (e.normalize row)).index) (e.normalize row) ≤ _
  rw [hpoint, hpoint', hp]
  exact lineDistanceSq_le_lineDistanceSq hl hl' (inner_nonneg hnonneg' hnonneg) hle

namespace Nsga3

/-! ## Runs -/

/-- **A run with exact estimates**: it fits together, and its estimates are those of all
rows of its past. -/
structure Run.IsExact (settings : Settings) (past : List (FitnessMatrix EReal)) (r : Run EReal) :
    Prop where
  /-- The run is over the rows of its past. -/
  isShaped : r.IsShaped past
  /-- It fits together, over the objectives of its first population. -/
  isWellFormed : ∃ m, past.head? = some m ∧ r.dim = m.width ∧ r.IsWellFormed settings m.width
  /-- The estimates are those of the rows. -/
  isOver : r.estimates.IsOver id (past.flatMap Array.toList)

/-- Every run is one, as extended reals can always be compared. -/
theorem isInvariant_isExact [SplitMix.Sampler] (settings : Settings) :
    Session.IsInvariant settings (Run.IsExact settings) where
  opening {m r} hsize hcount hwidth hr := by
    obtain ⟨hshaped, hfits⟩ := (isInvariant_isWellFormed settings).opening hsize hcount hwidth hr
    obtain ⟨-, hover⟩ := (isInvariant_isOver isKeyed_id settings).opening hsize hcount hwidth hr
    exact ⟨hshaped, hfits, hover fun _ _ _ _ => trivial⟩
  generation {past r parents children} g h hsize hcount := by
    obtain ⟨hshaped, hfits⟩ := (isInvariant_isWellFormed settings).generation g
      ⟨h.isShaped, h.isWellFormed⟩ hsize hcount
    obtain ⟨-, hover⟩ := (isInvariant_isOver isKeyed_id settings).generation g
      ⟨h.isShaped, fun _ => h.isOver⟩ hsize hcount
    exact ⟨hshaped, hfits, hover fun _ _ _ _ => trivial⟩

variable {settings : Settings} {past : List (FitnessMatrix EReal)} {r : Run EReal}

/-- **Rows of the past are associated with their nearest direction**, if all of them are
real. -/
theorem Run.IsExact.isNearest_ofRow (h : r.IsExact settings past)
    (hreal : ∀ row ∈ past.flatMap Array.toList, ∀ x ∈ row, IsReal x) {row : List EReal}
    (hrow : row ∈ past.flatMap Array.toList) (rank : ℕ) :
    (Association.ofRow r.estimates r.directions rank row).IsNearest r.estimates r.directions
      row := by
  obtain ⟨m, -, hdim, hwell⟩ := h.isWellFormed
  have htree := hwell.directionTree_eq
  rw [← hdim] at htree
  exact Association.isNearest_ofRow htree h.isShaped.hasShape h.isOver
    (fun row hrow => ⟨h.isShaped.length_row row hrow, hreal row hrow⟩) hrow rank

/-- **The members of a first population** have their nearest directions, if everybody is
placed. -/
theorem Run.isAssociated_ofPopulation {m : FitnessMatrix EReal}
    (hopened : Run.ofPopulation settings m = .ok r) (hexact : r.IsExact settings [m])
    (hreal : ∀ row ∈ m, ∀ x ∈ row, IsReal x)
    (hplaced : ∀ i < m.size, i ∈ (m.rankWith settings.strategy).ordered) : r.IsAssociated m := by
  obtain ⟨-, -, hmembers, -⟩ := Run.of_ofPopulation_eq_ok hopened
  refine ⟨?_, fun i hi => ?_⟩
  · rw [hmembers, Association.size_table, size_rankWith]
  · rw [hmembers, Association.lookUp_table _ _ _ _ (by rwa [size_rankWith]) (hplaced i hi)]
    refine hexact.isNearest_ofRow (fun row hrow => ?_) ?_ _
    · rw [List.flatMap_singleton, Array.mem_toList_iff] at hrow
      exact hreal row hrow
    · rw [List.flatMap_singleton, Array.mem_toList_iff]
      exact FitnessMatrix.row_mem hi

/-- **The survivors of a generation** have their nearest directions. -/
theorem Run.isAssociated_advance [SplitMix.Sampler] {combined : FitnessMatrix EReal} {g : SplitMix}
    {kept : List ℕ}
    (hkept : (r.advance SplitMix.below settings combined g).1 = .ok kept)
    (hexact : (r.advance SplitMix.below settings combined g).2.1.IsExact settings
      (past ++ [combined]))
    (hpast : ∀ row ∈ past.flatMap Array.toList, ∀ x ∈ row, IsReal x)
    (hreal : ∀ row ∈ combined, ∀ x ∈ row, IsReal x) :
    (r.advance SplitMix.below settings combined g).2.1.IsAssociated (combined.pick kept) := by
  obtain ⟨cause, hfailed, -⟩ | ⟨kept', hkept', -, hcut, hmembers⟩ :=
    Run.advance_cases (fun _ g hn => SplitMix.below_lt hn g) settings combined r g
  · cases hfailed.symm.trans hkept
  obtain rfl : kept' = kept := Except.ok.inj (hkept'.symm.trans hkept)
  obtain ⟨hdirections, hestimates⟩ := Run.advance_frame SplitMix.below settings combined r g
  have hrows (row : List EReal) : row ∈ (past ++ [combined]).flatMap Array.toList
      ↔ row ∈ past.flatMap Array.toList ∨ row ∈ combined := by
    rw [List.flatMap_append, List.flatMap_singleton, List.mem_append]
    exact or_congr Iff.rfl Array.mem_toList_iff
  refine ⟨?_, fun k hk => ?_⟩
  · rw [hmembers, List.size_toArray, List.length_map, FitnessMatrix.size_pick]
  · rw [FitnessMatrix.size_pick] at hk
    have hi := hcut _ (List.getElem_mem hk)
    have hlt : kept'[k] < combined.size := lt_of_mem_ordered_rankWith
      ((RankedFronts.complete_append_overflowing_prefix _ _).subset hi)
    have hmember : Association.lookUp (r.advance SplitMix.below settings combined g).2.1.members k
        = Association.ofRow (r.estimates.update combined) r.directions
            ((combined.rankWith settings.strategy).rank kept'[k]) (combined.row kept'[k]) := by
      rw [hmembers, Association.lookUp, Array.getD_eq_getD_getElem?, List.getElem?_toArray,
        List.getElem?_map, List.getElem?_eq_getElem hk]
      exact Association.lookUp_table _ _ _ _ (by rwa [size_rankWith]) hi
    rw [hmember, FitnessMatrix.row_pick hk, List.getD_eq_getElem _ _ hk, ← hestimates,
      ← hdirections]
    refine hexact.isNearest_ofRow (fun row hrow => ?_) ((hrows _).2 ?_) _
    · exact ((hrows row).1 hrow).elim (hpast row) (hreal row)
    · exact .inr (FitnessMatrix.row_mem hlt)

/-- **Every member has its nearest direction**, in exact arithmetic. After any requests to
a new policy, a first population that is taken and whose ranking places everybody, and
the survivors of a generation, are associated with the directions nearest to their rows,
with the distances to them, where rows are normalized by the estimates after the
request. -/
theorem isAssociated_run [SplitMix.Sampler] {shared rest : SplitMix} {p : Nsga3 EReal}
    (hnew : create settings shared = .ok (p, rest)) (requests : List (Request EReal)) :
    (∀ m : FitnessMatrix EReal, (∀ row ∈ m, ∀ x ∈ row, IsReal x) →
        (∀ i < m.size, i ∈ (m.rankWith settings.strategy).ordered) →
        (((Session.ofPolicy p).run requests).policy.start m).1 = .ok () →
        ∃ r, (((Session.ofPolicy p).run requests).policy.start m).2.run = some r
          ∧ r.IsAssociated m)
      ∧ ∀ (parents children : FitnessMatrix EReal) (kept : List ℕ),
        (∀ row ∈ ((Session.ofPolicy p).run requests).seen, ∀ x ∈ row, IsReal x) →
        (∀ row ∈ parents ++ children, ∀ x ∈ row, IsReal x) →
        (((Session.ofPolicy p).run requests).policy.nextGeneration parents children).1 = .ok kept →
        ∃ r, (((Session.ofPolicy p).run requests).policy.nextGeneration parents children).2.run
            = some r
          ∧ r.IsAssociated ((parents ++ children).pick kept) := by
  obtain ⟨hsettings, hnone, -⟩ := of_create_eq_ok hnew
  have hexact := isInvariant_isExact settings
  have hrun := hexact.run hsettings hnone requests
  have hkeeps : ((Session.ofPolicy p).run requests).policy.settings = settings :=
    (Session.settings_run _ requests).trans hsettings
  generalize (Session.ofPolicy p).run requests = s at hrun hkeeps ⊢
  refine ⟨fun m hreal hplaced hok => ?_, fun parents children kept hpast hreal hkept => ?_⟩
  · obtain ⟨hrefused, -⟩ | ⟨-, hcheck, r, hopened, hafter⟩ := s.policy.start_cases m
    · exact absurd hok hrefused
    · obtain ⟨hcount, hwidth, hsize⟩ := of_checkStart_eq_ok hcheck
      rw [hkeeps] at hopened hsize
      rw [hafter]
      exact ⟨r, rfl, Run.isAssociated_ofPopulation hopened
        (hexact.opening hsize hcount hwidth hopened) hreal hplaced⟩
  · unfold nextGeneration at hkept ⊢
    cases hcheck : checkNext parents children s.policy with
    | error e =>
      rw [hcheck] at hkept
      cases hkept
    | ok checked =>
      obtain ⟨r, combined⟩ := checked
      rw [hcheck] at hkept
      obtain ⟨hsome, rfl, hcount⟩ := of_checkNext_eq_ok hcheck
      have hsize := size_of_checkNext_eq_ok hcheck
      have hr := hrun r hsome
      rw [hkeeps] at hsize
      dsimp only at hkept ⊢
      rw [hkeeps] at hkept ⊢
      exact ⟨_, rfl, Run.isAssociated_advance hkept
        (hexact.generation s.policy.generator hr hsize hcount) hpast hreal⟩

/-- Two members, each at the end of an axis. -/
noncomputable def axisPair : FitnessMatrix EReal :=
  #[[Scalar.ofNat 4, Scalar.ofNat 0], [Scalar.ofNat 0, Scalar.ofNat 4]]

/-- A child between them. -/
noncomputable def middleChild : FitnessMatrix EReal :=
  #[[Scalar.ofNat 3, Scalar.ofNat 3]]

/-- Settings for two members and five directions. -/
def fiveDirections : Settings :=
  { populationSize := 2, seed := some 7, strategy := .kung, divisions := some 4 }

/-- The pair is taken as a first population, twice, and then are the parents of the child. -/
theorem axisPair_isAssociated :
    ∃ (p : Nsga3 EReal) (rest : SplitMix) (r r' : Run EReal) (kept : List ℕ),
      create fiveDirections ⟨0⟩ = .ok (p, rest)
        ∧ ((p.start axisPair).2.start axisPair).1 = .ok ()
        ∧ ((p.start axisPair).2.start axisPair).2.run = some r
        ∧ r.IsAssociated axisPair
        ∧ ((p.start axisPair).2.nextGeneration axisPair middleChild).1 = .ok kept
        ∧ ((p.start axisPair).2.nextGeneration axisPair middleChild).2.run = some r'
        ∧ kept.length = 2
        ∧ r'.IsAssociated ((axisPair ++ middleChild).pick kept) := by
  have hvalue (i : ℕ) : IsReal (Scalar.ofNat i) := isReal_coe i
  have hreal : ∀ row ∈ axisPair, ∀ x ∈ row, IsReal x := by simp [axisPair, hvalue]
  have hreal' : ∀ row ∈ axisPair ++ middleChild, ∀ x ∈ row, IsReal x := by
    simp [axisPair, middleChild, hvalue]
  have hcount : axisPair.objectiveCount = .ok 2 :=
    FitnessMatrix.objectiveCount_eq_ok (by decide) (by simp [axisPair]) (by decide)
  have hcount' : (axisPair ++ middleChild).objectiveCount = .ok 2 :=
    FitnessMatrix.objectiveCount_eq_ok (by decide) (by simp [axisPair, middleChild]) (by decide)
  have hroom : HasRoom fiveDirections 2 := fun n hn => by
    obtain rfl : 4 = n := Except.ok.inj hn
    decide
  -- the pair is taken by every policy with these settings
  have hstart (q : Nsga3 EReal) (hq : q.settings = fiveDirections) :
      (q.start axisPair).1 = .ok () :=
    start_eq_ok (checkStart_eq_ok hcount (Nat.le_refl 2) (by rw [hq]; rfl)) (by rw [hq]; decide)
      (by rw [hq]; exact hroom)
  have hnew : create (α := EReal) fiveDirections ⟨0⟩ = .ok (⟨fiveDirections, ⟨7⟩, none⟩, ⟨0⟩) := rfl
  have hsettings : (⟨fiveDirections, ⟨7⟩, none⟩ : Nsga3 EReal).settings = fiveDirections := rfl
  generalize (⟨fiveDirections, ⟨7⟩, none⟩ : Nsga3 EReal) = p at hnew hsettings
  have hok := hstart p hsettings
  obtain ⟨hrefused, -⟩ | ⟨-, -, hsettings', r, hrun, hdim, hsearchable, -⟩ :=
    start_frame axisPair p
  · exact absurd hok hrefused
  rw [hsettings] at hsettings'
  have hpast : ((Session.ofPolicy p).run [.start axisPair]).past = [axisPair] :=
    Session.past_perform_start hok
  have hseen : ∀ row ∈ ((Session.ofPolicy p).run [.start axisPair]).seen, ∀ x ∈ row, IsReal x := by
    unfold Session.seen
    rw [hpast]
    simpa using hreal
  have hplaced : (axisPair.rankWith fiveDirections.strategy).IsPartition :=
    isPartition_rankWith (by decide) fun h => by cases h
  have hplaced' : ((axisPair ++ middleChild).rankWith fiveDirections.strategy).IsPartition :=
    isPartition_rankWith (by decide) fun h => by cases h
  have hcheck : checkNext axisPair middleChild (p.start axisPair).2
      = .ok (r, axisPair ++ middleChild) :=
    checkNext_eq_ok hrun (by rw [hsettings']; rfl) (hcount'.trans (by rw [hdim]; rfl))
  obtain ⟨kept, hkept, hchoice⟩ := nextGeneration_eq_ok hcheck hsearchable (by rwa [hsettings'])
    (by rw [hsettings', size_rankWith]; decide)
  obtain ⟨hfirst, hnext⟩ := isAssociated_run hnew [.start axisPair]
  obtain ⟨r₁, hr₁, hassociated⟩ := hfirst axisPair hreal
    (fun i hi => (hplaced.mem_ordered i).2 (by rwa [size_rankWith])) (hstart _ hsettings')
  obtain ⟨r₂, hr₂, hassociated'⟩ := hnext axisPair middleChild kept hseen hreal' hkept
  exact ⟨p, ⟨0⟩, r₁, r₂, kept, hnew, hstart _ hsettings', hr₁, hassociated, hkept, hr₂,
    hchoice.length_eq.trans (by rw [hsettings']; rfl), hassociated'⟩

end Nsga3

end ParetoSelection
