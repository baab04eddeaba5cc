import ParetoSelection.Nsga3.Estimates
import ParetoSelection.Proofs.Nsga3.Session

/-!
# What the estimates are estimates of

Whatever the values are, ideal and nadir have a coordinate for every objective, and
there is an extreme point for every objective, which is a row of the run
(`Estimates.HasShape`, `extremes_update_subset`).

Where values are compared by keys, the estimates say something about all rows that
have been looked at, also about those that did not survive: the ideal is the largest
value on every axis, the nadir the smallest value of an extreme point
(`Estimates.IsOver`). Extreme points are chosen anew in every generation, from its rows
and the extreme points before, against an ideal that has moved. That the nadir is not
above the ideal is not due to how they are chosen, but to the ideal being a bound on
all rows, whichever of them are extreme (`IsOver.nadir_le_ideal`).
-/

namespace ParetoSelection

variable {α κ : Type} [Scalar α]

namespace Estimates

/-! ## Shapes -/

/-- The first row with the lowest score is one of the rows. -/
theorem firstLowest_mem (score : List α → α) (first : List α) (rest : List (List α)) :
    firstLowest score first rest ∈ first :: rest := by
  unfold firstLowest
  induction rest generalizing first with
  | nil => exact List.mem_singleton_self first
  | cons row rest ih =>
    rw [List.foldl_cons]
    obtain heq | hmem := List.mem_cons.1 (ih (if score row < score first then row else first))
    · rw [heq]
      split
      · exact List.mem_cons_of_mem _ List.mem_cons_self
      · exact List.mem_cons_self
    · exact List.mem_cons_of_mem _ (List.mem_cons_of_mem _ hmem)

/-- The extreme point of an axis is one of the rows. -/
theorem extremePoint_mem (ideal : List α) (axis : Nat) {rows : List (List α)} (h : rows ≠ []) :
    extremePoint ideal axis rows ∈ rows := by
  obtain ⟨first, rest, rfl⟩ := List.exists_cons_of_ne_nil h
  exact firstLowest_mem _ first rest

/-- **Extreme points are rows of the generation or extreme points before.** -/
theorem extremes_update_subset (e : Estimates α) {m : FitnessMatrix α} (hne : 0 < m.size) :
    (e.update m).extremes ⊆ m.toList ++ e.extremes := by
  have hrows : m.toList ++ e.extremes ≠ [] :=
    List.append_ne_nil_of_left_ne_nil (List.length_pos_iff.1 hne) _
  intro p hp
  obtain ⟨axis, -, rfl⟩ := List.mem_map.1 hp
  exact extremePoint_mem _ axis hrows

/-- **Estimates over a number of objectives.** -/
structure HasShape (dim : Nat) (e : Estimates α) : Prop where
  /-- The ideal point has a coordinate for every objective. -/
  length_ideal : e.ideal.length = dim
  /-- So has the nadir point. -/
  length_nadir : e.nadir.length = dim
  /-- There is an extreme point for every objective. -/
  length_extremes : e.extremes.length = dim
  /-- It has a coordinate for every objective. -/
  length_extreme : ∀ p ∈ e.extremes, p.length = dim

/-- There is an extreme point for every objective after a generation. -/
theorem length_extremes_update {e : Estimates α} {m : FitnessMatrix α} {dim : Nat}
    (hideal : e.ideal.length = dim) (hne : 0 < m.size) (h : ∀ row ∈ m, row.length = dim) :
    (e.update m).extremes.length = dim := by
  show ((List.range (e.update m).ideal.length).map _).length = dim
  rw [List.length_map, List.length_range, Nsga3.length_ideal_update hideal hne h]

/-- And it has a coordinate for every objective. -/
theorem length_of_mem_extremes_update {e : Estimates α} {m : FitnessMatrix α} {dim : Nat}
    (hextremes : ∀ p ∈ e.extremes, p.length = dim) (hne : 0 < m.size)
    (h : ∀ row ∈ m, row.length = dim) : ∀ p ∈ (e.update m).extremes, p.length = dim := by
  intro p hp
  obtain hrow | hbefore := List.mem_append.1 (e.extremes_update_subset hne hp)
  · exact h p (Array.mem_toList_iff.1 hrow)
  · exact hextremes p hbefore

/-- **The estimates after a generation have a shape**, if ideal and extreme points had
the right lengths before. -/
theorem hasShape_update {e : Estimates α} {m : FitnessMatrix α} {dim : Nat} (hdim : 0 < dim)
    (hideal : e.ideal.length = dim) (hextremes : ∀ p ∈ e.extremes, p.length = dim)
    (hne : 0 < m.size) (h : ∀ row ∈ m, row.length = dim) : (e.update m).HasShape dim := by
  have hcount := length_extremes_update hideal hne h
  have hextreme := length_of_mem_extremes_update hextremes hne h
  refine ⟨Nsga3.length_ideal_update hideal hne h, length_lowerCorner ?_ hextreme, hcount, hextreme⟩
  rw [← List.length_pos_iff]
  exact Nat.lt_of_lt_of_eq hdim hcount.symm

/-- A generation keeps the shape. -/
theorem HasShape.update {e : Estimates α} {m : FitnessMatrix α} {dim : Nat} (he : e.HasShape dim)
    (hdim : 0 < dim) (hne : 0 < m.size) (h : ∀ row ∈ m, row.length = dim) :
    (e.update m).HasShape dim :=
  hasShape_update hdim he.length_ideal he.length_extreme hne h

/-- The estimates of a first population have a shape. -/
theorem hasShape_before_update {m : FitnessMatrix α} {dim : Nat} (hdim : 0 < dim)
    (hne : 0 < m.size) (h : ∀ row ∈ m, row.length = dim) :
    ((before m).update m).HasShape dim := by
  refine hasShape_update hdim ?_ (fun p hp => absurd hp List.not_mem_nil) hne h
  exact length_upperCorner (List.length_pos_iff.1 hne) fun row hrow =>
    h row (Array.mem_toList_iff.1 hrow)

/-- **A coordinate of a normalized row.** -/
theorem getD_normalize {e : Estimates α} {row : List α} {dim k : Nat} (he : e.HasShape dim)
    (hrow : row.length = dim) (hk : k < dim) :
    (e.normalize row).getD k 0 = (e.ideal.getD k 0 - row.getD k 0)
      / Scalar.maxNum (e.ideal.getD k 0 - e.nadir.getD k 0) normalizationFloor := by
  have hideal : k < e.ideal.length := Nat.lt_of_lt_of_eq hk he.length_ideal.symm
  have hnadir : k < e.nadir.length := Nat.lt_of_lt_of_eq hk he.length_nadir.symm
  have hlen : k < row.length := Nat.lt_of_lt_of_eq hk hrow.symm
  have hnormal : k < (e.normalize row).length := by
    rw [normalize, List.length_map, List.length_zip, List.length_zip]
    omega
  rw [List.getD_eq_getElem _ _ hnormal, List.getD_eq_getElem _ _ hideal,
    List.getD_eq_getElem _ _ hnadir, List.getD_eq_getElem _ _ hlen]
  refine (List.getElem_map _).trans ?_
  rw [List.getElem_zip, List.getElem_zip]

/-- A normalized row has a coordinate for every objective. -/
theorem HasShape.length_normalize {e : Estimates α} {row : List α} {dim : Nat}
    (he : e.HasShape dim) (hrow : row.length = dim) : (e.normalize row).length = dim := by
  rw [normalize, List.length_map, List.length_zip, List.length_zip, he.length_ideal,
    he.length_nadir, hrow, Nat.min_self, Nat.min_self]

end Estimates

variable [LinearOrder κ]

section Keyed

variable {key : α → κ} {known : α → Prop} {dim k : Nat}

namespace Estimates

/-! ## Estimates of rows -/

/-- **The estimates of some rows**: the ideal has their greatest coordinates, extreme
points are among them, and the nadir has the smallest coordinates of these. -/
structure IsOver (key : α → κ) (seen : List (List α)) (e : Estimates α) : Prop where
  /-- The ideal has the greatest coordinates of all rows. -/
  ideal : ∀ k < e.ideal.length, IsGreatestOn key seen k (e.ideal.getD k 0)
  /-- Extreme points are rows. -/
  extremes_subset : e.extremes ⊆ seen
  /-- The nadir has the smallest coordinates of the extreme points. -/
  nadir : ∀ k < e.ideal.length,
    IsGreatestOn (OrderDual.toDual ∘ key) e.extremes k (e.nadir.getD k 0)

/-- **The nadir is not above the ideal**, because extreme points are rows. -/
theorem IsOver.nadir_le_ideal {seen : List (List α)} {e : Estimates α} (h : e.IsOver key seen)
    (hk : k < e.ideal.length) : key (e.nadir.getD k 0) ≤ key (e.ideal.getD k 0) := by
  obtain ⟨p, hp, heq⟩ := (h.nadir k hk).exists_eq
  rw [← heq]
  exact (h.ideal k hk).key_le p (h.extremes_subset hp)

/-- **A generation adds its rows** to those that the estimates are of. -/
theorem isOver_update (hkeyed : IsKeyed key known) {seen : List (List α)} {e : Estimates α}
    (hlen : e.ideal.length = dim)
    (hideal : ∀ k < dim, IsGreatestOn key seen k (e.ideal.getD k 0))
    (hextremes : e.extremes ⊆ seen) (hseen : ArePoints known dim seen) {m : FitnessMatrix α}
    (hne : 0 < m.size) (hm : ArePoints known dim m.toList) :
    (e.update m).IsOver key (seen ++ m.toList) := by
  have hrows : m.toList ≠ [] := List.length_pos_iff.1 hne
  have hlength : (e.update m).ideal.length = dim :=
    Nsga3.length_ideal_update hlen hne fun row hrow => (hm row (Array.mem_toList_iff.2 hrow)).1
  have hsubset : (e.update m).extremes ⊆ seen ++ m.toList := by
    intro p hp
    obtain hrow | hbefore := List.mem_append.1 (e.extremes_update_subset hne hp)
    · exact List.mem_append_right _ hrow
    · exact List.mem_append_left _ (hextremes hbefore)
  have hall : ArePoints known dim (seen ++ m.toList) := fun p hp =>
    (List.mem_append.1 hp).elim (hseen p) (hm p)
  refine ⟨fun k hk => ?_, hsubset, fun k hk => ?_⟩
  · rw [hlength] at hk
    have hcorner := isGreatestOn_upperCorner hkeyed hrows hm hk
    have hupper := length_upperCorner hrows fun p hp => (hm p hp).1
    show IsGreatestOn key _ k ((componentMax e.ideal (upperCorner m.toList)).getD k 0)
    rw [componentMax, getD_zipWith (by rwa [hlen]) (by rwa [hupper]),
      hkeyed.maxNum_eq ((hideal k hk).isKnown hseen hk) (hcorner.isKnown hm hk)]
    exact (hideal k hk).append hcorner
  · rw [hlength] at hk
    refine isGreatestOn_lowerCorner hkeyed ?_ (fun p hp => hall p (hsubset hp)) hk
    show (List.range (e.update m).ideal.length).map _ ≠ []
    rw [← List.length_pos_iff, List.length_map, List.length_range, hlength]
    exact Nat.zero_lt_of_lt hk

/-- **The estimates of a first population** are those of its rows. -/
theorem isOver_before_update (hkeyed : IsKeyed key known) {m : FitnessMatrix α} (hne : 0 < m.size)
    (hm : ArePoints known dim m.toList) : ((before m).update m).IsOver key m.toList := by
  have hrows : m.toList ≠ [] := List.length_pos_iff.1 hne
  have htwice := isOver_update (e := before m) hkeyed
    (length_upperCorner hrows fun p hp => (hm p hp).1)
    (fun k hk => isGreatestOn_upperCorner hkeyed hrows hm hk) (List.nil_subset _) hm hne hm
  have hmem (p : List α) : p ∈ m.toList ++ m.toList ↔ p ∈ m.toList := by
    rw [List.mem_append, or_self]
  exact ⟨fun k hk => (htwice.ideal k hk).congr hmem,
    fun p hp => (hmem p).1 (htwice.extremes_subset hp), htwice.nadir⟩

end Estimates

end Keyed

/-! ## Estimates of a run -/

namespace Nsga3

/-- **A run over the rows of its past**: it has their number of objectives, two at
least, and estimates of that shape. -/
structure Run.IsShaped (past : List (FitnessMatrix α)) (r : Run α) : Prop where
  /-- There are two objectives at least. -/
  two_le_dim : 2 ≤ r.dim
  /-- All rows have a value for every objective. -/
  length_row : ∀ row ∈ past.flatMap Array.toList, row.length = r.dim
  /-- So have the estimates. -/
  hasShape : r.estimates.HasShape r.dim

omit [LinearOrder κ] in
/-- **Every run is over the rows of its past.** -/
theorem isInvariant_isShaped [SplitMix.Sampler] (settings : Settings) :
    Session.IsInvariant settings fun past (r : Run α) => r.IsShaped past where
  opening {m r} hsize hcount hwidth hr := by
    obtain ⟨hne, -, hrows⟩ := FitnessMatrix.of_objectiveCount_eq_ok hcount
    have hdim := (Run.ofPopulation_eq_ok hr hne hrows).1
    obtain ⟨-, hestimates, -⟩ := Run.of_ofPopulation_eq_ok hr
    rw [← hdim] at hwidth hrows
    refine ⟨hwidth, fun row hrow => ?_, ?_⟩
    · rw [List.flatMap_singleton] at hrow
      exact hrows row (Array.mem_toList_iff.1 hrow)
    · rw [hestimates]
      exact Estimates.hasShape_before_update (Nat.zero_lt_of_lt hwidth) hne hrows
  generation {past r parents children} g h hsize hcount := by
    obtain ⟨hne, -, hrows⟩ := FitnessMatrix.of_objectiveCount_eq_ok hcount
    obtain ⟨-, hestimates⟩ := Run.advance_frame SplitMix.below settings (parents ++ children) r g
    have hshape := h.hasShape.update (Nat.zero_lt_of_lt h.two_le_dim) hne hrows
    rw [← hestimates] at hshape
    have hdim : (r.advance SplitMix.below settings (parents ++ children) g).2.1.dim = r.dim :=
      hshape.length_ideal
    refine ⟨le_of_le_of_eq h.two_le_dim hdim.symm, fun row hrow => ?_, ?_⟩
    · rw [hdim]
      rw [List.flatMap_append, List.flatMap_singleton] at hrow
      exact (List.mem_append.1 hrow).elim (h.length_row row) fun hrow =>
        hrows row (Array.mem_toList_iff.1 hrow)
    · rw [hdim]
      exact hshape

/-- **The estimates of a run are those of all rows of its past**, if these can be
compared. -/
theorem isInvariant_isOver [SplitMix.Sampler] {key : α → κ} {known : α → Prop}
    (hkeyed : IsKeyed key known) (settings : Settings) :
    Session.IsInvariant settings fun past (r : Run α) => r.IsShaped past
      ∧ ((∀ row ∈ past.flatMap Array.toList, ∀ x ∈ row, known x)
        → r.estimates.IsOver key (past.flatMap Array.toList)) where
  opening {m r} hsize hcount hwidth hr := by
    refine ⟨(isInvariant_isShaped settings).opening hsize hcount hwidth hr, fun hknown => ?_⟩
    obtain ⟨hne, -, hrows⟩ := FitnessMatrix.of_objectiveCount_eq_ok hcount
    obtain ⟨-, hestimates, -⟩ := Run.of_ofPopulation_eq_ok hr
    rw [List.flatMap_singleton] at hknown ⊢
    rw [hestimates]
    exact Estimates.isOver_before_update hkeyed hne fun row hrow =>
      ⟨hrows row (Array.mem_toList_iff.1 hrow), hknown row hrow⟩
  generation {past r parents children} g h hsize hcount := by
    obtain ⟨hshaped, hover⟩ := h
    refine ⟨(isInvariant_isShaped settings).generation g hshaped hsize hcount, fun hknown => ?_⟩
    obtain ⟨hne, -, hrows⟩ := FitnessMatrix.of_objectiveCount_eq_ok hcount
    obtain ⟨-, hestimates⟩ := Run.advance_frame SplitMix.below settings (parents ++ children) r g
    rw [List.flatMap_append, List.flatMap_singleton] at hknown ⊢
    have hbefore := hover fun row hrow => hknown row (List.mem_append_left _ hrow)
    rw [hestimates]
    refine Estimates.isOver_update hkeyed rfl hbefore.ideal hbefore.extremes_subset
      (fun row hrow => ⟨hshaped.length_row row hrow, hknown row (List.mem_append_left _ hrow)⟩)
      hne fun row hrow => ⟨hrows row (Array.mem_toList_iff.1 hrow),
        hknown row (List.mem_append_right _ hrow)⟩

end Nsga3

end ParetoSelection
