import Mathlib.Analysis.InnerProductSpace.PiL2
import Mathlib.Data.EReal.Inv
import ParetoSelection.Geometry
import ParetoSelection.Proofs.Keyed

/-!
# Exact arithmetic

What is computed with rounded numbers can be read with real numbers instead. The
scalars are then the extended reals: the real numbers with their own arithmetic, and
two infinities as the bounds that searches start from. Nothing is rounded, so the
functions on points are what they are named after: `dot` is the inner product of a
Euclidean space, `norm` its norm, and so on for distances, lines, unit vectors and
means. Points whose coordinates are real are the vectors of that space, written out as
lists (`coords`), and the lemmas `dot_coords`, `norm_coords`, … carry every
computation over to it.
-/

namespace ParetoSelection

/-- **The extended reals as scalars.** The root of a number below zero is zero. -/
noncomputable instance : Scalar EReal where
  zero := 0
  one := 1
  add := (· + ·)
  sub := (· - ·)
  mul := (· * ·)
  div := (· / ·)
  ofScientific digits negative exponent :=
    ((OfScientific.ofScientific digits negative exponent : ℝ) : EReal)
  lt := (· < ·)
  le := (· ≤ ·)
  beq a b := @decide (a = b) (Classical.propDecidable _)
  decidableLT := Classical.decRel _
  decidableLE := Classical.decRel _
  ofNat n := ((n : ℝ) : EReal)
  infinity := ⊤
  negInfinity := ⊥
  emptySum := 0
  abs a := max a (-a)
  sqrt a := if a = ⊤ then ⊤ else ((√a.toReal : ℝ) : EReal)
  totalCmp := compare

namespace Exact

/-- **Extended reals are compared by what they are.** -/
theorem isKeyed_id : IsKeyed (id : EReal → EReal) fun _ => True where
  lt_iff _ _ := Iff.rfl
  le_iff _ _ := Iff.rfl
  beq_iff _ _ := @decide_eq_true_iff _ (Classical.propDecidable _)

/-- They are sorted by what they are. -/
theorem isTotalBy_id : IsTotalBy (id : EReal → EReal) :=
  fun _ _ => rfl

/-- **A real number**, among the extended ones. -/
def IsReal (x : EReal) : Prop :=
  x ≠ ⊤ ∧ x ≠ ⊥

/-- A real number is one. -/
theorem isReal_coe (a : ℝ) : IsReal (a : EReal) :=
  ⟨EReal.coe_ne_top a, EReal.coe_ne_bot a⟩

/-! ## Real numbers -/

/-- The root of a real number. -/
theorem sqrt_coe (a : ℝ) : Scalar.sqrt (a : EReal) = ((√a : ℝ) : EReal) := by
  show (if (a : EReal) = ⊤ then ⊤ else ((√(a : EReal).toReal : ℝ) : EReal)) = _
  rw [if_neg (EReal.coe_ne_top a), EReal.toReal_coe]

/-- The larger of two real numbers. -/
theorem maxNum_coe (a b : ℝ) : Scalar.maxNum (a : EReal) b = ((max a b : ℝ) : EReal) :=
  (isKeyed_id.key_maxNum trivial trivial).trans (EReal.coe_strictMono.monotone.map_max).symm

/-- The largest of some real numbers. -/
theorem foldl_maxNum_coe (a : ℝ) (bs : List ℝ) :
    (bs.map Real.toEReal).foldl Scalar.maxNum (a : EReal) = ((bs.foldl max a : ℝ) : EReal) := by
  induction bs generalizing a with
  | nil => rfl
  | cons b bs ih => rw [List.map_cons, List.foldl_cons, List.foldl_cons, maxNum_coe, ih]

/-- **A sum of real numbers.** -/
theorem sum_ofFn {n : ℕ} (f : Fin n → ℝ) :
    Scalar.sum (List.ofFn fun k => (f k : EReal)) = ((∑ k, f k : ℝ) : EReal) := by
  induction n with
  | zero => rfl
  | succ n ih =>
    rw [List.ofFn_succ', List.concat_eq_append, Scalar.sum_concat, ih, Fin.sum_univ_castSucc]
    exact (EReal.coe_add _ _).symm

/-! ## Points -/

variable {n : ℕ}

/-- **The coordinates of a vector.** -/
noncomputable def coords (v : EuclideanSpace ℝ (Fin n)) : List EReal :=
  List.ofFn fun k => (v k : EReal)

@[simp]
theorem length_coords (v : EuclideanSpace ℝ (Fin n)) : (coords v).length = n :=
  List.length_ofFn

/-- **Every point with real coordinates is a vector.** -/
theorem exists_coords {p : List EReal} (hlen : p.length = n) (h : ∀ x ∈ p, IsReal x) :
    ∃ v : EuclideanSpace ℝ (Fin n), p = coords v := by
  subst hlen
  refine ⟨WithLp.toLp 2 fun k => (p.get k).toReal, ?_⟩
  refine List.ext_getElem (length_coords _).symm fun k hk hk' => ?_
  obtain ⟨htop, hbot⟩ := h p[k] (List.getElem_mem hk)
  exact (EReal.coe_toReal htop hbot).symm.trans (List.getElem_ofFn hk').symm

/-- The coordinates of a vector are real. -/
theorem isReal_of_mem_coords {v : EuclideanSpace ℝ (Fin n)} {x : EReal} (h : x ∈ coords v) :
    IsReal x := by
  obtain ⟨k, rfl⟩ := List.mem_ofFn.1 h
  exact isReal_coe (v k)

/-- Vectors are combined coordinate by coordinate. -/
theorem zipWith_coords {g : EReal → EReal → EReal} {f : ℝ → ℝ → ℝ}
    (hg : ∀ a b : ℝ, g a b = (f a b : EReal)) (a b : EuclideanSpace ℝ (Fin n)) :
    List.zipWith g (coords a) (coords b) = List.ofFn fun k => ((f (a k) (b k) : ℝ) : EReal) :=
  (zipWith_ofFn g _ _).trans (congrArg List.ofFn (funext fun k => hg (a k) (b k)))

/-- **A multiple of a vector.** -/
theorem map_mul_coords (c : ℝ) (v : EuclideanSpace ℝ (Fin n)) :
    (coords v).map ((c : EReal) * ·) = coords (c • v) := by
  unfold coords
  rw [List.map_ofFn]
  exact congrArg List.ofFn (funext fun k => (EReal.coe_mul c (v k)).symm)

open scoped InnerProductSpace

/-- **The inner product.** -/
theorem dot_coords (a b : EuclideanSpace ℝ (Fin n)) :
    dot (coords a) (coords b) = ((⟪a, b⟫_ℝ : ℝ) : EReal) := by
  unfold dot
  rw [zipWith_coords (f := fun x y => x * y) (fun x y => (EReal.coe_mul x y).symm), sum_ofFn,
    PiLp.inner_apply]
  refine congrArg _ (Finset.sum_congr rfl fun k _ => ?_)
  exact mul_comm (a k) (b k)

/-- **The length of a vector.** -/
theorem norm_coords (v : EuclideanSpace ℝ (Fin n)) : norm (coords v) = ((‖v‖ : ℝ) : EReal) := by
  unfold norm
  rw [dot_coords, sqrt_coe, real_inner_self_eq_norm_sq, Real.sqrt_sq (norm_nonneg v)]

/-- A sum of squared coordinates is a squared length. -/
theorem sum_mul_self (v : EuclideanSpace ℝ (Fin n)) : ∑ k, v k * v k = ‖v‖ ^ 2 := by
  rw [EuclideanSpace.real_norm_sq_eq]
  exact Finset.sum_congr rfl fun k _ => (sq (v k)).symm

/-- **The squared distance of two points.** -/
theorem distanceSq_coords (a b : EuclideanSpace ℝ (Fin n)) :
    distanceSq (coords a) (coords b) = ((‖a - b‖ ^ 2 : ℝ) : EReal) := by
  unfold distanceSq
  rw [zipWith_coords (f := fun x y => (x - y) * (x - y)) (fun x y => ?_), sum_ofFn,
    ← sum_mul_self]
  · rfl
  · rw [EReal.coe_mul, EReal.coe_sub]

/-- **The squared distance from a line**: that from the multiple of the line with the
foot coefficient. -/
theorem lineDistanceSq_coords (l p : EuclideanSpace ℝ (Fin n)) :
    lineDistanceSq (coords l) (coords p)
      = ((‖p - (⟪l, p⟫_ℝ / ⟪l, l⟫_ℝ) • l‖ ^ 2 : ℝ) : EReal) := by
  rw [lineDistanceSq_eq_distanceSq, footCoefficient, dot_coords, dot_coords, ← distanceSq_coords,
    ← map_mul_coords, EReal.coe_div]

/-- **The distance from a line of unit length** is what the inner product leaves of the
length of the point. -/
theorem lineDistanceSq_of_norm_eq_one {l : EuclideanSpace ℝ (Fin n)} (hl : ‖l‖ = 1)
    (p : EuclideanSpace ℝ (Fin n)) :
    lineDistanceSq (coords l) (coords p) = ((‖p‖ ^ 2 - ⟪l, p⟫_ℝ ^ 2 : ℝ) : EReal) := by
  rw [lineDistanceSq_coords, real_inner_self_eq_norm_sq, hl, one_pow, div_one, norm_sub_sq_real,
    norm_smul, hl, mul_one, real_inner_smul_right, real_inner_comm p l, Real.norm_eq_abs, sq_abs]
  refine congrArg _ ?_
  ring

/-- **Scaling to unit length.** -/
theorem normalized_coords (v : EuclideanSpace ℝ (Fin n)) :
    normalized (coords v) = coords (‖v‖⁻¹ • v) := by
  unfold normalized
  dsimp only
  rw [norm_coords]
  split
  · unfold coords
    rw [List.map_ofFn]
    refine congrArg List.ofFn (funext fun k => ?_)
    show (v k : EReal) / ((‖v‖ : ℝ) : EReal) = ((‖v‖⁻¹ * v k : ℝ) : EReal)
    rw [mul_comm, ← div_eq_mul_inv, EReal.coe_div]
  · rename_i hnot
    have hzero : v = 0 := by
      by_contra hne
      exact hnot (EReal.coe_pos.2 (norm_pos_iff.2 hne))
    rw [hzero, smul_zero]

/-- Adding up vectors, from one of them on. -/
theorem foldl_add_coords (t : EuclideanSpace ℝ (Fin n)) (vs : List (EuclideanSpace ℝ (Fin n))) :
    (vs.map coords).foldl (List.zipWith (· + ·)) (coords t) = coords (t + vs.sum) := by
  induction vs generalizing t with
  | nil => rw [List.sum_nil, add_zero, List.map_nil, List.foldl_nil]
  | cons v vs ih =>
    have hadd : List.zipWith (· + ·) (coords t) (coords v) = coords (t + v) :=
      zipWith_coords (fun x y => (EReal.coe_add x y).symm) t v
    rw [List.map_cons, List.foldl_cons, hadd, ih, List.sum_cons, add_assoc]

/-- **The mean of some vectors.** -/
theorem centroid_coords (vs : List (EuclideanSpace ℝ (Fin n))) :
    centroid n (vs.map coords) = coords ((vs.length : ℝ)⁻¹ • vs.sum) := by
  have hzero : List.replicate n (0 : EReal) = coords (0 : EuclideanSpace ℝ (Fin n)) :=
    (List.ofFn_const n 0).symm
  unfold centroid
  dsimp only
  rw [hzero, foldl_add_coords, zero_add, List.length_map]
  unfold coords
  rw [List.map_ofFn]
  refine congrArg List.ofFn (funext fun k => ?_)
  show (vs.sum k : EReal) / ((vs.length : ℝ) : EReal) = (((vs.length : ℝ)⁻¹ * vs.sum k : ℝ) : EReal)
  rw [mul_comm, ← div_eq_mul_inv, EReal.coe_div]

end Exact

end ParetoSelection
