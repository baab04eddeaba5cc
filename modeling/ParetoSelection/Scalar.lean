/-!
# The numbers selection is computed with

Fitness values are compared, subtracted, divided and summed, and nothing in
this library depends on what they are made of. `Scalar` lists the operations
that are used, without a single law: the numbers a program runs on are
`Binary64` patterns, whose addition is not associative and whose order leaves
NaN out, while a statement about distances and projections is read over a
field, where the same code computes the textbook quantity.

Two conventions of floating-point arithmetic are part of the interface,
because results show them. An empty sum is `emptySum` – negative zero among
floats, the only neutral element their addition has – and sums run from left
to right. And `totalCmp` compares *all* numbers, the ones `<` cannot compare
included, so that sorting is always defined.
-/

namespace ParetoSelection

/-- **The arithmetic of fitness values.** A collection of operations and
constants, with no law attached. -/
class Scalar (α : Type) extends Zero α, One α, Add α, Sub α, Mul α, Div α,
    OfScientific α, LT α, LE α, BEq α where
  /-- The strict order can be decided. -/
  decidableLT : DecidableLT α
  /-- The order can be decided. -/
  decidableLE : DecidableLE α
  /-- The number nearest to a natural number. -/
  ofNat : Nat → α
  /-- Above every finite number. -/
  infinity : α
  /-- Below every finite number. -/
  negInfinity : α
  /-- What the sum of no numbers is. -/
  emptySum : α
  /-- The magnitude. -/
  abs : α → α
  /-- The square root. -/
  sqrt : α → α
  /-- A comparison that places every number, also those `<` leaves out. -/
  totalCmp : α → α → Ordering

namespace Scalar

variable {α : Type} [Scalar α]

instance : DecidableLT α := Scalar.decidableLT

instance : DecidableLE α := Scalar.decidableLE

/-- **The larger of two numbers.** A number that differs from itself – a NaN –
loses against anything. -/
def maxNum (a b : α) : α :=
  if a < b || a != a then b else a

/-- **The smaller of two numbers.** A number that differs from itself – a NaN –
loses against anything. -/
def minNum (a b : α) : α :=
  if b < a || a != a then b else a

/-- **The sum of a list**, from left to right. -/
def sum (xs : List α) : α :=
  xs.foldl (· + ·) emptySum

@[simp] theorem sum_nil : sum ([] : List α) = emptySum := rfl

/-- One more term is added on the right. -/
theorem sum_concat (xs : List α) (x : α) : sum (xs ++ [x]) = sum xs + x := by
  simp [sum]

/-- Whether `totalCmp` does not put the first number above the second. -/
def totalLE (a b : α) : Bool :=
  (totalCmp a b).isLE

end Scalar

end ParetoSelection
