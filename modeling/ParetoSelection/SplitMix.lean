import ParetoSelection.Failure

/-!
# SplitMix64

The generator is a 64-bit word. A step adds an odd constant to it and returns
a scrambled copy; since the constant is odd, the state walks through all words
before it comes back, and since scrambling is one-to-one, so do the outputs.

Everything else that is drawn is made from outputs: a coin flip is the top bit,
a 32-bit word the upper half, a byte string the outputs with their least
significant byte first.

How an index below a bound is made from outputs is not laid down. Any way to do
so will do that keeps to the bound, and this is all that is known of a
`Sampler`. The one that programs run with is `scaledBelow`: an index below `n`
is the integer part of `n` times a fraction whose first digit, to the base of
all words, is drawn. Where what is left behind the point leaves open whether
further digits would carry into the integer part, one more digit is drawn, and
no more. It keeps to the bound because the integer part cannot be `n - 1`
already where there is so much behind the point (`scale_lt`).

A generator is a value, and each draw returns the generator to go on with.
-/

namespace ParetoSelection

/-- **A SplitMix64 generator.** -/
structure SplitMix where
  /-- The word that the next step starts from. -/
  state : UInt64
deriving DecidableEq, Repr, Inhabited

namespace SplitMix

/-- What a step adds to the state. -/
def gamma : UInt64 := 0x9e3779b97f4a7c15

/-- **The scrambling of a state into an output.** -/
def mix (z : UInt64) : UInt64 :=
  let z := (z ^^^ (z >>> 30)) * 0xbf58476d1ce4e5b9
  let z := (z ^^^ (z >>> 27)) * 0x94d049bb133111eb
  z ^^^ (z >>> 31)

/-- The generator after one step. -/
def step (g : SplitMix) : SplitMix :=
  ⟨g.state + gamma⟩

/-- **The next output.** -/
def next (g : SplitMix) : UInt64 × SplitMix :=
  (mix g.step.state, g.step)

/-- A coin flip: the top bit of the next output. -/
def coin (g : SplitMix) : Bool × SplitMix :=
  (g.next.1 >>> 63 = 1, g.step)

/-- A 32-bit word: the upper half of the next output. -/
def nextHalf (g : SplitMix) : UInt32 × SplitMix :=
  ((g.next.1 >>> 32).toUInt32, g.step)

/-- The bytes of a word, least significant first. -/
def wordBytes (w : UInt64) : List UInt8 :=
  (List.range 8).map fun k => (w >>> (8 * k.toUInt64)).toUInt8

/-- **A string of `count` bytes.** Every eight of them, and the rest, take one
output. -/
def bytes (count : Nat) (g : SplitMix) : List UInt8 × SplitMix :=
  if count = 0 then ([], g)
  else
    let (w, g) := g.next
    let (rest, g) := bytes (count - 8) g
    ((wordBytes w).take count ++ rest, g)
termination_by count

/-- A string of `count` bytes, or a failure if there is no room for it. -/
def checkedBytes (count : Nat) (g : SplitMix) : Except Failure (List UInt8 × SplitMix) :=
  if maxBytes < count then .error .tooLarge else .ok (bytes count g)

/-- How many 32-bit words there are. -/
def halfWords : Nat := 0x100000000

/-- How many 64-bit words there are. -/
def words : Nat := 0x10000000000000000

/-- **The integer part of `n` times a fraction**, `draw` giving a digit of the
fraction to the base `base`. A second digit is only drawn if the first one
leaves so much behind the point that it could carry. -/
def scale (base : Nat) (draw : SplitMix → Nat × SplitMix) (n : Nat) (g : SplitMix) :
    Nat × SplitMix :=
  let (x, g) := draw g
  let whole := x * n / base
  let behind := x * n % base
  if base - n < behind then
    let (y, g) := draw g
    (if base ≤ behind + y * n / base then whole + 1 else whole, g)
  else
    (whole, g)

/-- **The integer part of `n` times a fraction is below `n`**, carry
included. -/
theorem scale_lt {base n : Nat} {draw : SplitMix → Nat × SplitMix}
    (hdraw : ∀ g, (draw g).1 < base) (hn : 0 < n) (g : SplitMix) :
    (scale base draw n g).1 < n := by
  have hx := hdraw g
  have hmul : (draw g).1 * n ≤ (base - 1) * n := Nat.mul_le_mul_right n (Nat.le_sub_one_of_lt hx)
  have hbase : 0 < base := Nat.lt_of_le_of_lt (Nat.zero_le _) hx
  have hsplit : base * ((draw g).1 * n / base) + (draw g).1 * n % base = (draw g).1 * n :=
    Nat.div_add_mod _ _
  have hlt : (draw g).1 * n / base < n := by
    rw [Nat.div_lt_iff_lt_mul hbase, Nat.mul_comm n base]
    exact Nat.mul_lt_mul_of_pos_right hx hn
  unfold scale
  dsimp only
  split
  · rename_i hbehind
    dsimp only
    split
    · -- the last integer part leaves at most `base - n` behind the point
      have hne : (draw g).1 * n / base + 1 ≠ n := by
        intro hlast
        have hwhole : base * n = base * ((draw g).1 * n / base) + base := by
          rw [← Nat.mul_succ, Nat.succ_eq_add_one, hlast]
        have htop : (base - 1) * n + n = base * n := by
          rw [← Nat.succ_mul, Nat.succ_eq_add_one, Nat.sub_add_cancel hbase]
        omega
      exact Nat.lt_of_le_of_ne hlt hne
    · exact hlt
  · exact hlt

/-- **An index below `n` by scaling**, from 32-bit words if `n` fits in one, else from
64-bit words. Nothing is drawn for `n = 0`, where no index is below. -/
def scaledBelow (n : Nat) (g : SplitMix) : Nat × SplitMix :=
  if n = 0 then (0, g)
  else if n < halfWords then scale halfWords (fun g => (g.nextHalf.1.toNat, g.nextHalf.2)) n g
  else scale words (fun g => (g.next.1.toNat, g.next.2)) n g

/-- It is below `n`. -/
theorem scaledBelow_lt {n : Nat} (hn : 0 < n) (g : SplitMix) : (scaledBelow n g).1 < n := by
  unfold scaledBelow
  rw [if_neg (Nat.ne_of_gt hn)]
  split
  · exact scale_lt (fun g => UInt32.toNat_lt g.nextHalf.1) hn g
  · exact scale_lt (fun g => UInt64.toNat_lt g.next.1) hn g

/-- **A way to draw an index below a bound.** -/
class Sampler where
  /-- An index below a bound, and the generator that is left. -/
  draw : Nat → SplitMix → Nat × SplitMix
  /-- The index is below the bound, if anything is. -/
  draw_lt : ∀ {n : Nat}, 0 < n → ∀ g, (draw n g).1 < n

/-- Programs scale fractions. -/
instance : Sampler := ⟨scaledBelow, scaledBelow_lt⟩

/-- **An index below `n`.** -/
def below [Sampler] (n : Nat) (g : SplitMix) : Nat × SplitMix :=
  Sampler.draw n g

/-- An index below `n`, or none if there is none. -/
def index? [Sampler] (n : Nat) (g : SplitMix) : Option (Nat × SplitMix) :=
  if n = 0 then none else some (below n g)

/-- One of the elements of a list, if there is any. -/
def element? [Sampler] {ι : Type} (items : List ι) (g : SplitMix) : Option ι × SplitMix :=
  match index? items.length g with
  | none => (none, g)
  | some (i, g) => (items[i]?, g)

/-- **The generator shared by a whole program**, before anyone has used it. -/
def shared : SplitMix := ⟨0x3da99432ab975d26⟩

end SplitMix

end ParetoSelection
