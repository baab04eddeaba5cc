import ParetoSelection.Proofs.Binary64.Order
import ParetoSelection.Proofs.Nsga3.Estimates

/-!
# The box that rows are normalized by

On finite values a run remembers every row that it has looked at since its first
population, as far as the ideal is concerned: no row is above it on any axis, and every
coordinate of it is that of a row. Extreme points are such rows, whichever of them a
generation chooses, so the nadir, which has their smallest coordinates, is not above the
ideal, and as the past only grows the ideal never decreases (`isBoxOf_run`).

The box that rows are normalized by therefore has all of them below its upper end.
Where the difference to the ideal does not overflow, a normalized coordinate is the
quotient of a number that is not negative by one that is at least
`normalizationFloor`, so it is not negative.
-/

namespace ParetoSelection

namespace Estimates

/-- **The box around some rows**: what the ideal, the extreme points and the nadir are,
and what they make of the rows. -/
structure IsBoxOf (dim : Nat) (seen : List (List Binary64)) (e : Estimates Binary64) : Prop where
  /-- Every coordinate of the ideal is that of a row. -/
  ideal_mem : ∀ k < dim, ∃ row ∈ seen, row.getD k 0 = e.ideal.getD k 0
  /-- No row is above the ideal. -/
  le_ideal : ∀ k < dim, ∀ row ∈ seen, row.getD k 0 ≤ e.ideal.getD k 0
  /-- There is an extreme point for every objective. -/
  length_extremes : e.extremes.length = dim
  /-- Extreme points are rows. -/
  extremes_subset : ∀ p ∈ e.extremes, p ∈ seen
  /-- Every coordinate of the nadir is that of an extreme point. -/
  nadir_mem : ∀ k < dim, ∃ p ∈ e.extremes, p.getD k 0 = e.nadir.getD k 0
  /-- No extreme point is below the nadir. -/
  nadir_le : ∀ k < dim, ∀ p ∈ e.extremes, e.nadir.getD k 0 ≤ p.getD k 0
  /-- The nadir is not above the ideal. -/
  nadir_le_ideal : ∀ k < dim, e.nadir.getD k 0 ≤ e.ideal.getD k 0
  /-- The divisor of an axis is at least `normalizationFloor`. -/
  floor_le : ∀ k < dim, (normalizationFloor : Binary64)
    ≤ Scalar.maxNum (e.ideal.getD k 0 - e.nadir.getD k 0) normalizationFloor
  /-- Unless its difference to the ideal overflows, a row divided by it is not
  negative. -/
  normalize_nonneg : ∀ row ∈ seen, ∀ k < dim, (e.ideal.getD k 0 - row.getD k 0).IsFinite →
    (e.normalize row).getD k 0 = (e.ideal.getD k 0 - row.getD k 0)
        / Scalar.maxNum (e.ideal.getD k 0 - e.nadir.getD k 0) normalizationFloor
      ∧ 0 ≤ (e.normalize row).getD k 0

/-- The floor of the divisors is a positive number. -/
theorem grade_normalizationFloor_pos :
    (normalizationFloor : Binary64).IsNumber ∧ 0 < (normalizationFloor : Binary64).grade := by
  decide +kernel

/-- **The quotient of a difference that is not negative by a divisor** is not
negative. -/
theorem div_maxNum_nonneg {x : Binary64} (hx : x.IsFinite) (hx' : 0 ≤ x.grade) (y : Binary64) :
    0 ≤ x / Scalar.maxNum y normalizationFloor := by
  obtain ⟨hfloor, hpos⟩ := grade_normalizationFloor_pos
  obtain ⟨hdivisor, hle⟩ := Binary64.le_maxNum_right y hfloor
  obtain ⟨hnumber, hnonneg⟩ :=
    Binary64.grade_div_nonneg hx hdivisor hx' (Int.lt_of_lt_of_le hpos hle)
  exact (Binary64.le_iff (by decide) hnumber).2 hnonneg

/-- **Estimates of finite rows** are the box around them. -/
theorem IsOver.isBoxOf {dim : Nat} {seen : List (List Binary64)} {e : Estimates Binary64}
    (h : e.IsOver Binary64.grade seen) (hshape : e.HasShape dim)
    (hseen : ArePoints Binary64.IsFinite dim seen) : e.IsBoxOf dim seen := by
  have hlen {k : Nat} (hk : k < dim) : k < e.ideal.length :=
    Nat.lt_of_lt_of_eq hk hshape.length_ideal.symm
  have hextremes : ArePoints Binary64.IsFinite dim e.extremes := fun p hp =>
    hseen p (h.extremes_subset hp)
  -- every coordinate that is compared is finite
  have hrow {k : Nat} (hk : k < dim) {row : List Binary64} (hrow : row ∈ seen) :
      (row.getD k 0).IsFinite := by
    obtain ⟨hlength, hfinite⟩ := hseen row hrow
    rw [← hlength] at hk
    rw [List.getD_eq_getElem _ _ hk]
    exact hfinite _ (List.getElem_mem hk)
  have hideal {k : Nat} (hk : k < dim) : (e.ideal.getD k 0).IsFinite :=
    (h.ideal k (hlen hk)).isKnown hseen hk
  have hnadir {k : Nat} (hk : k < dim) : (e.nadir.getD k 0).IsFinite :=
    (h.nadir k (hlen hk)).isKnown hextremes hk
  have hfloor := grade_normalizationFloor_pos.1
  refine ⟨fun k hk => (h.ideal k (hlen hk)).exists_eq, fun k hk row hmem => ?_,
    hshape.length_extremes, fun p hp => h.extremes_subset hp,
    fun k hk => (h.nadir k (hlen hk)).exists_eq, fun k hk p hp => ?_, fun k hk => ?_,
    fun k hk => ?_, fun row hmem k hk hdifference => ?_⟩
  · exact (Binary64.le_iff (hrow hk hmem).isNumber (hideal hk).isNumber).2
      ((h.ideal k (hlen hk)).key_le row hmem)
  · exact (Binary64.le_iff (hnadir hk).isNumber (hrow hk (h.extremes_subset hp)).isNumber).2
      ((h.nadir k (hlen hk)).key_le p hp)
  · exact (Binary64.le_iff (hnadir hk).isNumber (hideal hk).isNumber).2
      (h.nadir_le_ideal (hlen hk))
  · obtain ⟨hdivisor, hle⟩ :=
      Binary64.le_maxNum_right (e.ideal.getD k 0 - e.nadir.getD k 0) hfloor
    exact (Binary64.le_iff hfloor hdivisor).2 hle
  · have hquotient := getD_normalize hshape (hseen row hmem).1 hk
    refine ⟨hquotient, ?_⟩
    rw [hquotient]
    have hle := (h.ideal k (hlen hk)).key_le row hmem
    exact div_maxNum_nonneg hdifference
      (Binary64.grade_sub (s := .positive) (hideal hk) (hrow hk hmem)
        (Int.sub_nonneg_of_le hle)).2 _

end Estimates

namespace Nsga3

/-- **The estimates over a whole run on finite values.** After any requests to a new
policy, the ideal, the extreme points and the nadir are the box around all rows that the
run has looked at; and as long as no other first population is taken, no further
requests make a coordinate of the ideal smaller. -/
theorem isBoxOf_run [SplitMix.Sampler] {settings : Settings} {shared rest : SplitMix}
    {p : Nsga3 Binary64}
    (hnew : create settings shared = .ok (p, rest)) (requests : List (Request Binary64))
    {r : Run Binary64} (hrun : ((Session.ofPolicy p).run requests).policy.run = some r)
    (hfinite : ∀ row ∈ ((Session.ofPolicy p).run requests).seen, ∀ x ∈ row, x.IsFinite) :
    r.estimates.IsBoxOf r.dim ((Session.ofPolicy p).run requests).seen
      ∧ ∀ (more : List (Request Binary64)) (r' : Run Binary64),
        ((Session.ofPolicy p).run requests).BeginsNoRun more →
        (((Session.ofPolicy p).run requests).run more).policy.run = some r' →
        (∀ row ∈ (((Session.ofPolicy p).run requests).run more).seen, ∀ x ∈ row, x.IsFinite) →
        r'.dim = r.dim
          ∧ ∀ k < r.dim, r.estimates.ideal.getD k 0 ≤ r'.estimates.ideal.getD k 0 := by
  obtain ⟨hsettings, hnone, -⟩ := of_create_eq_ok hnew
  -- what holds after any requests
  have hbox (requests : List (Request Binary64)) {r : Run Binary64}
      (hrun : ((Session.ofPolicy p).run requests).policy.run = some r)
      (hfinite : ∀ row ∈ ((Session.ofPolicy p).run requests).seen, ∀ x ∈ row, x.IsFinite) :
      r.IsShaped ((Session.ofPolicy p).run requests).past
        ∧ r.estimates.IsBoxOf r.dim ((Session.ofPolicy p).run requests).seen := by
    obtain ⟨hshaped, hover⟩ :=
      (isInvariant_isOver Binary64.isKeyed_grade settings).run hsettings hnone requests r hrun
    have hover := hover fun row hrow x hx => (hfinite row hrow x hx).isNumber
    exact ⟨hshaped, hover.isBoxOf hshaped.hasShape fun row hrow =>
      ⟨hshaped.length_row row hrow, hfinite row hrow⟩⟩
  obtain ⟨hshaped, hnow⟩ := hbox requests hrun hfinite
  refine ⟨hnow, fun more r' hbegins hrun' hfinite' => ?_⟩
  have hsubset : ∀ row ∈ ((Session.ofPolicy p).run requests).seen,
      row ∈ (((Session.ofPolicy p).run requests).run more).seen := fun row hrow =>
    ((Session.past_prefix_past_run hbegins).flatMap Array.toList).subset hrow
  have happend : ((Session.ofPolicy p).run requests).run more
      = (Session.ofPolicy p).run (requests ++ more) := List.foldl_append.symm
  rw [happend] at hrun' hfinite' hsubset
  obtain ⟨hshaped', hlater⟩ := hbox (requests ++ more) hrun' hfinite'
  have hdim : r'.dim = r.dim := by
    obtain ⟨row, hrow, -⟩ := hnow.ideal_mem 0 (Nat.zero_lt_of_lt hshaped.two_le_dim)
    exact (hshaped'.length_row row (hsubset row hrow)).symm.trans (hshaped.length_row row hrow)
  refine ⟨hdim, fun k hk => ?_⟩
  obtain ⟨row, hrow, heq⟩ := hnow.ideal_mem k hk
  rw [← heq]
  exact hlater.le_ideal k (Nat.lt_of_lt_of_eq hk hdim.symm) row (hsubset row hrow)

/-- A population of two, a generation with two children, and another one. -/
def crossing : List (Request Binary64) × List (Request Binary64) :=
  let row (a b : Nat) : List Binary64 := [Scalar.ofNat a, Scalar.ofNat b]
  ([.start #[row 4 0, row 0 4], .next #[row 4 0, row 0 4] #[row 3 3, row 1 5]],
    [.prepare, .next #[row 3 3, row 1 5] #[row 2 2, row 6 1]])

/-- The ideal is made up of rows of which one is of the first generation and one of
the second, and later moves on along the first axis. -/
theorem crossing_isBoxOf :
    ∃ (p : Nsga3 Binary64) (rest : SplitMix) (r r' : Run Binary64),
      create { populationSize := 2, seed := some 7 } ⟨0⟩ = .ok (p, rest)
        ∧ ((Session.ofPolicy p).run crossing.1).policy.run = some r
        ∧ (((Session.ofPolicy p).run crossing.1).run crossing.2).policy.run = some r'
        ∧ (∀ row ∈ (((Session.ofPolicy p).run crossing.1).run crossing.2).seen,
            ∀ x ∈ row, x.IsFinite)
        ∧ r.estimates.ideal = [Scalar.ofNat 4, Scalar.ofNat 5]
        ∧ r'.estimates.ideal = [Scalar.ofNat 6, Scalar.ofNat 5]
        ∧ r.estimates.IsBoxOf r.dim ((Session.ofPolicy p).run crossing.1).seen
        ∧ ∀ k < r.dim, r.estimates.ideal.getD k 0 ≤ r'.estimates.ideal.getD k 0 := by
  have hnew : create (α := Binary64) { populationSize := 2, seed := some 7 } ⟨0⟩
      = .ok (⟨{ populationSize := 2, seed := some 7 }, ⟨7⟩, none⟩, ⟨0⟩) := rfl
  generalize hp : (⟨{ populationSize := 2, seed := some 7 }, ⟨7⟩, none⟩ : Nsga3 Binary64) = p
    at hnew
  have hideal : ((Session.ofPolicy p).run crossing.1).policy.run.map (·.estimates.ideal)
      = some [Scalar.ofNat 4, Scalar.ofNat 5] := by
    subst hp
    decide +kernel
  have hideal' : (((Session.ofPolicy p).run crossing.1).run crossing.2).policy.run.map
      (·.estimates.ideal) = some [Scalar.ofNat 6, Scalar.ofNat 5] := by
    subst hp
    decide +kernel
  have hfinite : ∀ row ∈ (((Session.ofPolicy p).run crossing.1).run crossing.2).seen,
      ∀ x ∈ row, x.IsFinite := by
    subst hp
    decide +kernel
  obtain ⟨r, hr, hideal⟩ := Option.map_eq_some_iff.1 hideal
  obtain ⟨r', hr', hideal'⟩ := Option.map_eq_some_iff.1 hideal'
  have hbegins : ((Session.ofPolicy p).run crossing.1).BeginsNoRun crossing.2 :=
    ⟨fun m h => (by cases h), fun m h => (by cases h), trivial⟩
  have hsubset := ((Session.past_prefix_past_run hbegins).flatMap Array.toList).subset
  obtain ⟨hbox, hlater⟩ := isBoxOf_run hnew crossing.1 hr fun row hrow => hfinite row (hsubset hrow)
  exact ⟨p, ⟨0⟩, r, r', hnew, hr, hr', hfinite, hideal, hideal', hbox,
    (hlater crossing.2 r' hbegins hr' hfinite).2⟩

end Nsga3

end ParetoSelection
