import ParetoSelection.Fitness
import ParetoSelection.Geometry

/-!
# Ideal, extreme and nadir points

Where the best values lie is estimated over the whole run. The *ideal point*
has the largest value seen on every axis. For every axis there is an *extreme
point*: of the rows of a generation and the extreme points so far, the one
whose scalarized distance to the ideal is smallest when deviations off the axis
weigh a million times as much – so a row far out along the axis. The *nadir
point* has the smallest value on every axis among the extreme points.

Ideal and nadir span the box that rows are normalized by: the ideal goes to the
origin, the nadir to one on every axis, and an axis of the box that is
vanishingly short counts as `normalizationFloor` long.
-/

namespace ParetoSelection

open Scalar

variable {α : Type} [Scalar α]

/-- **The estimates of a run.** -/
structure Estimates (α : Type) where
  /-- The largest value seen on every axis. -/
  ideal : List α
  /-- The smallest value of the extreme points on every axis. -/
  nadir : List α
  /-- A row of the run for every axis. -/
  extremes : List (List α)
deriving DecidableEq, Repr

namespace Estimates

/-- The divisor of deviations off the axis an extreme point is sought for. -/
def offAxisWeight : α := 1e-6

/-- The least span that an axis is normalized by. -/
def normalizationFloor : α := 1e-6

/-- The divisors of the deviations on all axes: one on the axis itself. -/
def axisWeights (dim axis : Nat) : List α :=
  (List.range dim).map fun k => if k = axis then 1 else offAxisWeight

/-- **The scalarized distance of a row to the ideal point**: the largest
deviation, each divided by its weight. -/
def scalarization (ideal weights row : List α) : α :=
  (((ideal.zip weights).zip row).map fun ((z, w), v) => (z - v) / w).foldl maxNum negInfinity

/-- The first of some rows with the lowest score, counting `first` as the first
of them. -/
def firstLowest (score : List α → α) (first : List α) (rest : List (List α)) : List α :=
  rest.foldl (fun best row => if score row < score best then row else best) first

/-- **The extreme point of an axis** among some rows; without any rows, the
ideal point. -/
def extremePoint (ideal : List α) (axis : Nat) (rows : List (List α)) : List α :=
  match rows with
  | [] => ideal
  | first :: rest =>
    firstLowest (scalarization ideal (axisWeights ideal.length axis)) first rest

/-- The estimates of a run that begins with the given rows, before they have
been looked at. -/
def before (m : FitnessMatrix α) : Estimates α :=
  ⟨upperCorner m.toList, [], []⟩

/-- **The estimates after the rows of a generation.** -/
def update (e : Estimates α) (m : FitnessMatrix α) : Estimates α :=
  let ideal := componentMax e.ideal (upperCorner m.toList)
  let extremes := (List.range ideal.length).map fun axis =>
    extremePoint ideal axis (m.toList ++ e.extremes)
  ⟨ideal, lowerCorner extremes, extremes⟩

/-- **A row relative to the box of ideal and nadir point.** -/
def normalize (e : Estimates α) (row : List α) : List α :=
  ((e.ideal.zip e.nadir).zip row).map fun ((z, n), v) =>
    (z - v) / maxNum (z - n) normalizationFloor

end Estimates

end ParetoSelection
