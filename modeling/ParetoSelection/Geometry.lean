import ParetoSelection.Scalar

/-!
# Points, directions and distances

A point is the list of its coordinates, and two points that meet in an
operation have the same number of them. Distances are squared wherever only
their order matters.

The distance of a point from a line through the origin is taken at the foot
of the perpendicular, `k • line` with `k = ⟨line, point⟩ / ⟨line, line⟩`, so
the line need not have unit length – but it must not be the zero vector, for
which there is no foot.
-/

namespace ParetoSelection

open Scalar

variable {α : Type} [Scalar α]

/-- The inner product. -/
def dot (a b : List α) : α :=
  sum (List.zipWith (· * ·) a b)

/-- The Euclidean length. -/
def norm (v : List α) : α :=
  sqrt (dot v v)

/-- The squared Euclidean distance of two points. -/
def distanceSq (a b : List α) : α :=
  sum (List.zipWith (fun x y => (x - y) * (x - y)) a b)

/-- The multiple of `line` that is closest to `point`. -/
def footCoefficient (line point : List α) : α :=
  dot line point / dot line line

/-- **The squared distance from a point to a line through the origin**, given
by any non-zero vector along it. -/
def lineDistanceSq (line point : List α) : α :=
  let k := footCoefficient line point
  sum (List.zipWith (fun l p => (p - k * l) * (p - k * l)) line point)

/-- The vector scaled to unit length. One that has no positive length – the
zero vector, or one with a NaN – stays as it is. -/
def normalized (v : List α) : List α :=
  let length := norm v
  if 0 < length then v.map (· / length) else v

/-- The larger coordinate of two points, axis by axis. -/
def componentMax (a b : List α) : List α :=
  List.zipWith maxNum a b

/-- The smaller coordinate of two points, axis by axis. -/
def componentMin (a b : List α) : List α :=
  List.zipWith minNum a b

/-- **The upper corner of a set of points**: the largest coordinate on every
axis. The corner of no points has no coordinates. -/
def upperCorner : List (List α) → List α
  | [] => []
  | p :: rest => rest.foldl componentMax p

/-- **The lower corner of a set of points**: the smallest coordinate on every
axis. The corner of no points has no coordinates. -/
def lowerCorner : List (List α) → List α
  | [] => []
  | p :: rest => rest.foldl componentMin p

/-- The arithmetic mean of a set of points that all have `dim` coordinates. -/
def centroid (dim : Nat) (points : List (List α)) : List α :=
  let total := points.foldl (List.zipWith (· + ·)) (List.replicate dim 0)
  total.map (· / ofNat points.length)

/-- **The distance from a line is the distance from a point of it**, the foot of the
perpendicular. -/
theorem lineDistanceSq_eq_distanceSq (line point : List α) :
    lineDistanceSq line point = distanceSq point (line.map (footCoefficient line point * ·)) := by
  unfold lineDistanceSq distanceSq
  rw [List.zipWith_map_right, List.zipWith_comm]

theorem length_componentMax (a b : List α) :
    (componentMax a b).length = min a.length b.length := by
  simp [componentMax]

omit [Scalar α] in
/-- Points given by their coordinates are combined coordinate by coordinate. -/
theorem zipWith_ofFn {n : Nat} (op : α → α → α) (f g : Fin n → α) :
    List.zipWith op (List.ofFn f) (List.ofFn g) = List.ofFn fun k => op (f k) (g k) :=
  List.ext_getElem (by simp) fun k hk hk' => by simp

/-- Scaling keeps the number of coordinates. -/
@[simp] theorem length_normalized (v : List α) : (normalized v).length = v.length := by
  unfold normalized
  dsimp only
  split <;> simp

end ParetoSelection
