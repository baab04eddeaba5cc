import ParetoSelection.Scalar

/-!
# Binary64 patterns

A fitness value is stored as the 64 bits of a double-precision number. Core's
`Float` has the arithmetic of these numbers and a single NaN; the bits are
kept here because the total order tells one NaN from another, and a value
that is only copied, compared and sorted must come out as it went in.

The arithmetic is the one of `Float`, through `toFloat` and `ofFloat`, where
an operation that has no number as its result has the same positive NaN every
time. Programs cannot rely on that (`withNaN`), and the total order shows it.
The total order is the order of the keys of `orderKey`: reading the sign bit as
"above or below all patterns of the other sign" and the remaining bits as a
magnitude, negative NaN comes first, then `-∞`, the finite numbers with `-0`
directly below `+0`, `+∞`, and positive NaN last.
-/

namespace ParetoSelection

/-- **A double-precision number, as its bits.** -/
structure Binary64 where
  /-- Sign, exponent and significand, most significant bit first. -/
  bits : UInt64
deriving DecidableEq, Repr, Inhabited

namespace Binary64

/-- The number that the pattern stands for. -/
def toFloat (x : Binary64) : Float :=
  Float.ofBits x.bits

/-- The pattern of a number. -/
def ofFloat (v : Float) : Binary64 :=
  ⟨v.toBits⟩

/-- The first pattern with the sign bit set, which is negative zero. -/
def negZero : Binary64 := ⟨0x8000000000000000⟩

/-- **The position of a pattern in the total order.** Patterns without the
sign bit keep their order and move above all others; patterns with it are
reversed. -/
def orderKey (x : Binary64) : UInt64 :=
  if x.bits < negZero.bits then x.bits ^^^ negZero.bits else ~~~x.bits

instance : Scalar Binary64 where
  zero := ⟨0⟩
  one := ⟨0x3ff0000000000000⟩
  add a b := ofFloat (a.toFloat + b.toFloat)
  sub a b := ofFloat (a.toFloat - b.toFloat)
  mul a b := ofFloat (a.toFloat * b.toFloat)
  div a b := ofFloat (a.toFloat / b.toFloat)
  ofScientific digits negative exponent :=
    ofFloat (Float.ofScientific digits negative exponent)
  lt a b := a.toFloat < b.toFloat
  le a b := a.toFloat ≤ b.toFloat
  beq a b := a.toFloat == b.toFloat
  decidableLT a b := Float.decLt a.toFloat b.toFloat
  decidableLE a b := Float.decLe a.toFloat b.toFloat
  ofNat n := ofFloat (Float.ofNat n)
  infinity := ⟨0x7ff0000000000000⟩
  negInfinity := ⟨0xfff0000000000000⟩
  emptySum := negZero
  abs a := ofFloat a.toFloat.abs
  sqrt a := ofFloat a.toFloat.sqrt
  totalCmp a b := compare a.orderKey b.orderKey

/-- Whether the pattern is a NaN, of either sign. -/
def isNaN (x : Binary64) : Bool :=
  x.toFloat.isNaN

/-- The pattern, or the given one in place of a NaN. -/
def settle (nan x : Binary64) : Binary64 :=
  if x.isNaN then nan else x

/-- **The same arithmetic with another NaN.** Which NaN an operation results in, and with which
sign, is up to the machine: here it is the given pattern. -/
@[reducible] def withNaN (nan : Binary64) : Scalar Binary64 :=
  { (inferInstance : Scalar Binary64) with
    add := fun a b => settle nan (a + b)
    sub := fun a b => settle nan (a - b)
    mul := fun a b => settle nan (a * b)
    div := fun a b => settle nan (a / b)
    sqrt := fun a => settle nan (Scalar.sqrt a) }

end Binary64

end ParetoSelection
