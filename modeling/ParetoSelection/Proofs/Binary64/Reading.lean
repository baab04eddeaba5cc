import Mathlib
import ParetoSelection.Binary64

/-!
# What a binary64 pattern says

Core's floats are computed with by taking the 64 bits apart into sign,
significand and exponent, working on those, and putting the result together
again. `reading` is that first step. For the order of the numbers none of this
is needed: among the patterns that are not NaN the bits behind the sign bit are
in the same order as the magnitudes they stand for, so that a pattern is
compared by its `grade`, which is those bits as a signed integer
(`compare_reading`). Both zeros have grade zero.

The total order agrees with the order of the grades as well, except that it
puts negative zero below positive zero (`totalCmp_eq_compare_grade`).
-/

namespace ParetoSelection

namespace Binary64

open Float.Model
open UnpackedFloat (Sign)

/-- **What the bits of a pattern say**: a sign, a significand and an exponent,
or that it is no number. -/
def reading (x : Binary64) : UnpackedFloat :=
  UnpackedFloat.unpack Format.binary64 x.bits.toBitVec

/-- The pattern that a reading is put into. -/
def packed (u : UnpackedFloat) : Binary64 :=
  ⟨UInt64.ofBitVec (UnpackedFloat.pack Format.binary64 u)⟩

/-- The bits behind the sign bit, as a number. -/
def magnitude (x : Binary64) : Nat :=
  x.bits.toNat % 2 ^ 63

/-- The sign that the first bit gives. -/
def sign (x : Binary64) : Sign :=
  if x.bits.toNat < 2 ^ 63 then .positive else .negative

/-- **The bits as a signed integer.** -/
def grade (x : Binary64) : Int :=
  x.sign.apply x.magnitude

/-- The magnitude of infinity; the larger ones are those of NaNs. -/
def infiniteMagnitude : Nat := 2047 * 2 ^ 52

/-- **A pattern that is a number**, or infinite. -/
def IsNumber (x : Binary64) : Prop :=
  x.magnitude ≤ infiniteMagnitude

/-- **A pattern that is a finite number.** -/
def IsFinite (x : Binary64) : Prop :=
  x.toFloat.isFinite = true

instance (x : Binary64) : Decidable x.IsNumber :=
  inferInstanceAs (Decidable (_ ≤ _))

instance (x : Binary64) : Decidable x.IsFinite :=
  inferInstanceAs (Decidable (_ = _))

/-- The significand of a finite number, with the leading bit that normal
numbers leave out. -/
def significand (x : Binary64) : Nat :=
  if x.magnitude < 2 ^ 52 then x.magnitude else 2 ^ 52 + x.magnitude % 2 ^ 52

/-- The exponent of a finite number, which subnormal numbers share with the
smallest normal ones. -/
def exponent (x : Binary64) : Int :=
  max (x.magnitude / 2 ^ 52 : Nat) 1 - 1075

/-- The pattern with the given sign, exponent field and fraction. -/
def ofComponents (s : Sign) (e : BitVec 11) (m : BitVec 52) : Binary64 :=
  ⟨UInt64.ofBitVec (UnpackedFloat.packComponents Format.binary64 s e m)⟩

/-! ## Bits -/

/-- The fraction is the last 52 bits. -/
theorem toNat_unpackMantissa (b : BitVec 64) :
    (@UnpackedFloat.unpackMantissa Format.binary64 b).toNat = b.toNat % 2 ^ 52 := by
  unfold UnpackedFloat.unpackMantissa
  simp [BitVec.extractLsb_toNat]

/-- The field is the 11 bits in front of the fraction. -/
theorem toNat_unpackExponent (b : BitVec 64) :
    (@UnpackedFloat.unpackExponent Format.binary64 b).toNat
      = b.toNat / 2 ^ 52 % 2 ^ 11 := by
  unfold UnpackedFloat.unpackExponent
  simp [BitVec.extractLsb_toNat, Nat.shiftRight_eq_div_pow]

/-- The sign bit is the first one. -/
theorem toNat_unpackSign (b : BitVec 64) :
    (@UnpackedFloat.unpackSign Format.binary64 b).toNat = b.toNat / 2 ^ 63 := by
  unfold UnpackedFloat.unpackSign
  simp [BitVec.extractLsb_toNat, Nat.shiftRight_eq_div_pow]
  have := b.isLt
  omega

/-- Components are put together in this order. -/
theorem toNat_packComponents (s : Sign) (e : BitVec 11) (m : BitVec 52) :
    (UnpackedFloat.packComponents Format.binary64 s e m).toNat
      = (s.toBitVec.toNat * 2 ^ 11 + e.toNat) * 2 ^ 52 + m.toNat := by
  unfold UnpackedFloat.packComponents
  rw [BitVec.toNat_append, BitVec.toNat_append, ← Nat.shiftLeft_add_eq_or_of_lt m.isLt,
    ← Nat.shiftLeft_add_eq_or_of_lt e.isLt, Nat.shiftLeft_eq, Nat.shiftLeft_eq]

/-- The sign bit gives the sign. -/
theorem ofBitVec_unpackSign (x : Binary64) :
    Sign.ofBitVec (@UnpackedFloat.unpackSign Format.binary64 x.bits.toBitVec)
      = x.sign := by
  have h := toNat_unpackSign x.bits.toBitVec
  have hlt := x.bits.toBitVec.isLt
  unfold Sign.ofBitVec sign
  refine if_congr ?_ rfl rfl
  rw [← BitVec.toNat_inj, h]
  show x.bits.toNat / 2 ^ 63 = 0 ↔ _
  omega

/-- The magnitude of a pattern that is put together. -/
theorem magnitude_ofComponents (s : Sign) (e : BitVec 11) (m : BitVec 52) :
    (ofComponents s e m).magnitude = e.toNat * 2 ^ 52 + m.toNat := by
  unfold magnitude ofComponents
  rw [UInt64.toNat_ofBitVec, toNat_packComponents]
  have := e.isLt
  have := m.isLt
  omega

/-- The sign of a pattern that is put together. -/
theorem sign_ofComponents (s : Sign) (e : BitVec 11) (m : BitVec 52) :
    (ofComponents s e m).sign = s := by
  unfold sign ofComponents
  rw [UInt64.toNat_ofBitVec, toNat_packComponents]
  have := e.isLt
  have := m.isLt
  cases s with
  | negative =>
    refine if_neg ?_
    show ¬ (1 * 2 ^ 11 + _) * 2 ^ 52 + _ < _
    omega
  | positive =>
    refine if_pos ?_
    show (0 * 2 ^ 11 + _) * 2 ^ 52 + _ < _
    omega

/-- A pattern is its sign and its magnitude. -/
theorem ext_of_magnitude {x y : Binary64} (hs : x.sign = y.sign)
    (hm : x.magnitude = y.magnitude) : x = y := by
  have hx := x.bits.toNat_lt
  have hy := y.bits.toNat_lt
  have hbits : x.bits.toNat = y.bits.toNat := by
    unfold sign at hs
    unfold magnitude at hm
    split_ifs at hs <;> omega
  cases x
  cases y
  exact congrArg Binary64.mk (UInt64.toNat_inj.1 hbits)

/-! ## Significand and exponent -/

/-- A significand has at most 53 bits. -/
theorem significand_lt (x : Binary64) : x.significand < 2 ^ 53 := by
  unfold significand
  split <;> omega

/-- Normal numbers are those with the leading bit. -/
theorem le_significand_iff (x : Binary64) : 2 ^ 52 ≤ x.significand ↔ 2 ^ 52 ≤ x.magnitude := by
  unfold significand
  split <;> omega

/-- The bits behind the leading one are the last bits of the pattern. -/
theorem significand_mod (x : Binary64) : x.significand % 2 ^ 52 = x.magnitude % 2 ^ 52 := by
  unfold significand
  split <;> omega

/-- **Exponent first, significand second** is the order of the magnitudes. -/
theorem compare_exponent_then (x y : Binary64) :
    (compare x.exponent y.exponent).then (compare x.significand y.significand)
      = compare x.magnitude y.magnitude := by
  have hx := x.significand_mod
  have hy := y.significand_mod
  have hxlt := x.significand_lt
  have hylt := y.significand_lt
  have hxnormal := x.le_significand_iff
  have hynormal := y.le_significand_iff
  have hex : x.exponent = max (x.magnitude / 2 ^ 52 : Nat) 1 - 1075 := rfl
  have hey : y.exponent = max (y.magnitude / 2 ^ 52 : Nat) 1 - 1075 := rfl
  rcases Int.lt_trichotomy x.exponent y.exponent with hlt | heq | hgt
  · rw [compare_lt_iff_lt.2 hlt, Ordering.lt_then, eq_comm, compare_lt_iff_lt]
    omega
  · rw [compare_eq_iff_eq.2 heq, Ordering.eq_then]
    rcases Nat.lt_trichotomy x.magnitude y.magnitude with h | h | h
    · rw [compare_lt_iff_lt.2 h, compare_lt_iff_lt]
      omega
    · rw [compare_eq_iff_eq.2 h, compare_eq_iff_eq]
      omega
    · rw [compare_gt_iff_gt.2 h, compare_gt_iff_gt]
      omega
  · rw [compare_gt_iff_gt.2 hgt, Ordering.gt_then, eq_comm, compare_gt_iff_gt]
    omega

/-! ## Reading a pattern and putting it together again -/

/-- Finite readings are the same if their parts are. -/
theorem exists_finite_eq {s : Sign} {m m' : Nat} {e e' : Int} (hm : m = m') (he : e = e')
    (h : 0 < m) : ∃ h', UnpackedFloat.finite s m e h = .finite s m' e' h' := by
  subst hm he
  exact ⟨h, rfl⟩

/-- The field for the exponent, as the 11 bits behind the sign bit. -/
def field (x : Binary64) : BitVec 11 :=
  @UnpackedFloat.unpackExponent Format.binary64 x.bits.toBitVec

/-- The last 52 bits. -/
def fraction (x : Binary64) : BitVec 52 :=
  @UnpackedFloat.unpackMantissa Format.binary64 x.bits.toBitVec

/-- The bits behind the sign bit are the field and the fraction. -/
theorem magnitude_eq_add (x : Binary64) :
    x.magnitude = x.field.toNat * 2 ^ 52 + x.fraction.toNat := by
  have hfield : x.field.toNat = x.bits.toNat / 2 ^ 52 % 2 ^ 11 := toNat_unpackExponent _
  have hfraction : x.fraction.toNat = x.bits.toNat % 2 ^ 52 := toNat_unpackMantissa _
  unfold magnitude
  omega

/-- Subnormal numbers are read as they are. -/
theorem reading_of_subnormal {x : Binary64} (hfield : x.field = 0#11)
    (hfraction : ¬ x.fraction = 0#52) :
    ∃ h, x.reading = .finite x.sign x.significand x.exponent h := by
  have hones : ¬ x.field = -1#11 := by rw [hfield]; decide
  have hreading : ∃ h, x.reading = .finite
      (Sign.ofBitVec (@UnpackedFloat.unpackSign Format.binary64 x.bits.toBitVec))
      x.fraction.toNat ((x.field.toNat : Int) - 1075 + 1) h :=
    ⟨_, (if_neg hones).trans ((if_pos hfield).trans (dif_neg hfraction))⟩
  obtain ⟨h, hreading⟩ := hreading
  have hmag := x.magnitude_eq_add
  have hlt : x.fraction.toNat < 2 ^ 52 := x.fraction.isLt
  rw [hfield] at hreading hmag
  rw [hreading, ofBitVec_unpackSign]
  have hzero : (0#11).toNat = 0 := rfl
  refine exists_finite_eq ?_ ?_ h
  · unfold significand
    rw [if_pos (by omega)]
    omega
  · unfold exponent
    omega

/-- Normal numbers are read with the leading bit put in front. -/
theorem reading_of_normal {x : Binary64} (hones : ¬ x.field = -1#11) (hfield : ¬ x.field = 0#11) :
    ∃ h, x.reading = .finite x.sign x.significand x.exponent h := by
  have hreading : ∃ h, x.reading = .finite
      (Sign.ofBitVec (@UnpackedFloat.unpackSign Format.binary64 x.bits.toBitVec))
      (1#1 ++ x.fraction).toNat ((x.field.toNat : Int) - 1075) h :=
    ⟨_, (if_neg hones).trans (if_neg hfield)⟩
  obtain ⟨h, hreading⟩ := hreading
  have hmag := x.magnitude_eq_add
  have hlt : x.fraction.toNat < 2 ^ 52 := x.fraction.isLt
  rw [← BitVec.toNat_inj] at hfield
  have hzero : (0#11).toNat = 0 := rfl
  rw [hreading, ofBitVec_unpackSign]
  refine exists_finite_eq ?_ ?_ h
  · rw [BitVec.toNat_append, ← Nat.shiftLeft_add_eq_or_of_lt x.fraction.isLt, Nat.shiftLeft_eq]
    unfold significand
    rw [if_neg (by omega)]
    show 1 * 2 ^ 52 + _ = _
    omega
  · unfold exponent
    omega

/-- **The reading of a pattern**: infinite, no number, zero or finite, as the
magnitude says. -/
theorem reading_cases (x : Binary64) :
    (x.magnitude = infiniteMagnitude ∧ x.reading = .infinity x.sign)
      ∨ (infiniteMagnitude < x.magnitude ∧ x.reading = .notANumber)
      ∨ (x.magnitude = 0 ∧ x.reading = .zero x.sign)
      ∨ (0 < x.magnitude ∧ x.magnitude < infiniteMagnitude
          ∧ ∃ h, x.reading = .finite x.sign x.significand x.exponent h) := by
  have hmag := x.magnitude_eq_add
  have hlt : x.field.toNat < 2 ^ 11 := x.field.isLt
  have hlt' : x.fraction.toNat < 2 ^ 52 := x.fraction.isLt
  have hones : x.field = -1#11 ↔ x.field.toNat = 2047 := BitVec.toNat_inj.symm
  have hzero : x.field = 0#11 ↔ x.field.toNat = 0 := BitVec.toNat_inj.symm
  have hnone : x.fraction = 0#52 ↔ x.fraction.toNat = 0 := BitVec.toNat_inj.symm
  unfold infiniteMagnitude
  by_cases hfield : x.field.toNat = 2047
  · by_cases hfraction : x.fraction.toNat = 0
    · refine .inl ⟨by omega, ?_⟩
      rw [← ofBitVec_unpackSign]
      exact (if_pos (hones.2 hfield)).trans (if_pos (hnone.2 hfraction))
    · refine .inr (.inl ⟨by omega, ?_⟩)
      exact (if_pos (hones.2 hfield)).trans (if_neg (mt hnone.1 hfraction))
  by_cases hsubnormal : x.field.toNat = 0
  · by_cases hfraction : x.fraction.toNat = 0
    · refine .inr (.inr (.inl ⟨by omega, ?_⟩))
      rw [← ofBitVec_unpackSign]
      exact (if_neg (mt hones.1 hfield)).trans
        ((if_pos (hzero.2 hsubnormal)).trans (dif_pos (hnone.2 hfraction)))
    · refine .inr (.inr (.inr ⟨by omega, by omega, ?_⟩))
      exact reading_of_subnormal (hzero.2 hsubnormal) (mt hnone.1 hfraction)
  · refine .inr (.inr (.inr ⟨by omega, by omega, ?_⟩))
    exact reading_of_normal (mt hones.1 hfield) (mt hzero.1 hsubnormal)

/-- The magnitude of infinity is read as infinity. -/
theorem reading_of_infinite {x : Binary64} (h : x.magnitude = infiniteMagnitude) :
    x.reading = .infinity x.sign := by
  have hinf : 0 < infiniteMagnitude := by decide
  obtain ⟨-, hr⟩ | ⟨hm, -⟩ | ⟨hm, -⟩ | ⟨-, hm, -⟩ := x.reading_cases
  · exact hr
  · exact absurd h (Nat.ne_of_gt hm)
  · exact absurd (h.symm.trans hm) (Nat.ne_of_gt hinf)
  · exact absurd h (Nat.ne_of_lt hm)

/-- The magnitude zero is read as zero. -/
theorem reading_of_zero {x : Binary64} (h : x.magnitude = 0) : x.reading = .zero x.sign := by
  have hinf : 0 < infiniteMagnitude := by decide
  obtain ⟨hm, -⟩ | ⟨hm, -⟩ | ⟨-, hr⟩ | ⟨hpos, -⟩ := x.reading_cases
  · exact absurd (hm.symm.trans h) (Nat.ne_of_gt hinf)
  · exact absurd h (Nat.ne_of_gt (Nat.lt_trans hinf hm))
  · exact hr
  · exact absurd h (Nat.ne_of_gt hpos)

/-- The magnitudes in between are read as significand and exponent. -/
theorem reading_of_between {x : Binary64} (hpos : 0 < x.magnitude)
    (hlt : x.magnitude < infiniteMagnitude) :
    ∃ h, x.reading = .finite x.sign x.significand x.exponent h := by
  obtain ⟨hm, -⟩ | ⟨hm, -⟩ | ⟨hm, -⟩ | ⟨-, -, hfinite⟩ := x.reading_cases
  · exact absurd hm (Nat.ne_of_lt hlt)
  · exact absurd hlt (Nat.not_lt_of_lt hm)
  · exact absurd hm (Nat.ne_of_gt hpos)
  · exact hfinite

/-- **Putting the reading of a number together gives the number back.** -/
theorem packed_reading {x : Binary64} (h : x.IsNumber) : packed x.reading = x := by
  have hnan : ¬ @UnpackedFloat.isNaNBits Format.binary64 x.bits.toBitVec = true := by
    rw [UnpackedFloat.isNaNBits, decide_eq_true_iff, ne_eq, ← BitVec.toNat_inj,
      ← BitVec.toNat_inj, toNat_unpackExponent, toNat_unpackMantissa]
    show ¬ (x.bits.toNat / 2 ^ 52 % 2 ^ 11 = 2047 ∧ ¬ x.bits.toNat % 2 ^ 52 = 0)
    unfold IsNumber magnitude infiniteMagnitude at h
    omega
  unfold packed reading
  rw [UnpackedFloat.pack_unpack, if_neg hnan]

/-- What is not a number reads as NaN. -/
theorem reading_eq_notANumber {x : Binary64} (h : ¬ x.IsNumber) : x.reading = .notANumber := by
  have hlt : infiniteMagnitude < x.magnitude := Nat.lt_of_not_le h
  rcases x.reading_cases with ⟨hm, -⟩ | ⟨-, hr⟩ | ⟨hm, -⟩ | ⟨-, hm, -⟩
  · omega
  · exact hr
  · omega
  · omega

/-- Arithmetic starts from the reading of the bits, also of a NaN. -/
theorem unpack_toModel (x : Binary64) : x.toFloat.toModel.unpack = x.reading := by
  show (packed x.reading).reading = x.reading
  by_cases h : x.IsNumber
  · rw [packed_reading h]
  · rw [reading_eq_notANumber h]
    exact reading_eq_notANumber (by decide)

/-- Finite numbers are those of a magnitude below infinity. -/
theorem isFinite_iff {x : Binary64} : x.IsFinite ↔ x.magnitude < infiniteMagnitude := by
  show x.toFloat.toModel.unpack.isFinite = true ↔ _
  rw [unpack_toModel]
  have hinf : 0 < infiniteMagnitude := by decide
  rcases x.reading_cases with ⟨hm, hr⟩ | ⟨hm, hr⟩ | ⟨hm, hr⟩ | ⟨-, hm, _, hr⟩
  · exact iff_of_false (by rw [hr]; exact Bool.false_ne_true) (by omega)
  · exact iff_of_false (by rw [hr]; exact Bool.false_ne_true) (by omega)
  · exact iff_of_true (by rw [hr]; rfl) (by omega)
  · exact iff_of_true (by rw [hr]; rfl) hm

/-- Finite numbers are numbers. -/
theorem IsFinite.isNumber {x : Binary64} (h : x.IsFinite) : x.IsNumber :=
  Nat.le_of_lt (isFinite_iff.1 h)

/-- A finite number is zero, or is read as its sign, significand and
exponent. -/
theorem IsFinite.reading_cases {x : Binary64} (h : x.IsFinite) :
    (x.magnitude = 0 ∧ x.reading = .zero x.sign)
      ∨ (0 < x.magnitude ∧ ∃ h, x.reading = .finite x.sign x.significand x.exponent h) := by
  obtain hzero | hpos := Nat.eq_zero_or_pos x.magnitude
  · exact Or.inl ⟨hzero, reading_of_zero hzero⟩
  · exact Or.inr ⟨hpos, reading_of_between hpos (isFinite_iff.1 h)⟩

/-! ## The order of numbers -/

/-- Two comparisons are the same if each side is the smaller one in both. -/
theorem compare_congr {α β : Type} [LinearOrder α] [LinearOrder β] {a b : α} {c d : β}
    (hlt : a < b ↔ c < d) (hgt : b < a ↔ d < c) : compare a b = compare c d := by
  rcases lt_trichotomy c d with h | h | h
  · rw [compare_lt_iff_lt.2 h, compare_lt_iff_lt, hlt]
    exact h
  · rw [compare_eq_iff_eq.2 h, compare_eq_iff_eq]
    have hnlt : ¬ a < b := fun hab => ne_of_lt (hlt.1 hab) h
    have hngt : ¬ b < a := fun hba => ne_of_gt (hgt.1 hba) h
    exact le_antisymm (not_lt.1 hngt) (not_lt.1 hnlt)
  · rw [compare_gt_iff_gt.2 h, compare_gt_iff_gt]
    exact hgt.2 h

/-- Natural numbers are compared alike among the integers. -/
theorem compare_natCast (a b : Nat) : compare (a : Int) (b : Int) = compare a b :=
  compare_congr Int.ofNat_lt Int.ofNat_lt

/-- Negation turns a comparison round. -/
theorem compare_neg_natCast (a b : Nat) : compare (-(a : Int)) (-b) = (compare a b).swap := by
  rw [Nat.compare_swap]
  exact compare_congr (by omega) (by omega)

/-- **Numbers are compared by their grades.** -/
theorem compare_reading {x y : Binary64} (hx : x.IsNumber) (hy : y.IsNumber) :
    x.reading.compare y.reading = some (compare x.grade y.grade) := by
  have hinf : 0 < infiniteMagnitude := by decide
  unfold IsNumber at hx hy
  unfold grade
  -- every kind of number against every kind, with every pair of signs
  rcases x.reading_cases with ⟨hmx, hrx⟩ | ⟨hmx, -⟩ | ⟨hmx, hrx⟩ | ⟨hzx, hmx, _, hrx⟩ <;>
  rcases y.reading_cases with ⟨hmy, hry⟩ | ⟨hmy, -⟩ | ⟨hmy, hry⟩ | ⟨hzy, hmy, _, hry⟩ <;>
  first
    | omega
    | (rw [hrx, hry]
       cases hsx : x.sign <;> cases hsy : y.sign <;>
         simp only [UnpackedFloat.compare, Sign.apply, Option.some.injEq, compare_natCast,
           compare_exponent_then])
  all_goals first
    | exact (compare_lt_iff_lt.2 (by omega)).symm
    | exact (compare_gt_iff_gt.2 (by omega)).symm
    | exact (compare_eq_iff_eq.2 (by omega)).symm
    | exact (compare_neg_natCast _ _).symm

/-- Less than is read off the comparison of readings. -/
theorem lt_iff_compare {x y : Binary64} : x < y ↔ x.reading.compare y.reading = some .lt := by
  rw [← unpack_toModel, ← unpack_toModel, ← beq_iff_eq]
  show decide _ = true ↔ _
  exact decide_eq_true_iff

/-- Less than or equal is read off the comparison of readings. -/
theorem le_iff_compare {x y : Binary64} :
    x ≤ y ↔ (x.reading.compare y.reading).any (·.isLE) = true := by
  rw [← unpack_toModel, ← unpack_toModel]
  show decide _ = true ↔ _
  exact decide_eq_true_iff

/-- Equality is read off the comparison of readings. -/
theorem beq_eq_compare {x y : Binary64} :
    (x == y) = (x.reading.compare y.reading == some .eq) := by
  rw [← unpack_toModel, ← unpack_toModel]
  rfl

/-- Less than, by grades. -/
theorem lt_iff {x y : Binary64} (hx : x.IsNumber) (hy : y.IsNumber) :
    x < y ↔ x.grade < y.grade := by
  rw [lt_iff_compare, compare_reading hx hy, ← compare_lt_iff_lt]
  exact Option.some_inj

/-- Less than or equal, by grades. -/
theorem le_iff {x y : Binary64} (hx : x.IsNumber) (hy : y.IsNumber) :
    x ≤ y ↔ x.grade ≤ y.grade := by
  rw [le_iff_compare, compare_reading hx hy, ← compare_le_iff_le]
  cases compare x.grade y.grade <;> decide

/-- Equal, by grades: both zeros are. -/
theorem beq_iff {x y : Binary64} (hx : x.IsNumber) (hy : y.IsNumber) :
    (x == y) = true ↔ x.grade = y.grade := by
  rw [beq_eq_compare, compare_reading hx hy, ← compare_eq_iff_eq (a := x.grade)]
  cases compare x.grade y.grade <;> decide

/-- **Less than compares numbers only**: nothing is below a NaN, and a NaN is below
nothing. -/
theorem isNumber_of_lt {x y : Binary64} (h : x < y) : x.IsNumber ∧ y.IsNumber := by
  rw [lt_iff_compare] at h
  constructor
  · by_contra hx
    rw [reading_eq_notANumber hx] at h
    cases h
  · by_contra hy
    rw [reading_eq_notANumber hy] at h
    cases hx : x.reading <;> rw [hx] at h <;> cases h

/-- No pattern is below itself, and a NaN is no exception. -/
theorem not_lt_self (x : Binary64) : ¬ x < x := by
  intro h
  obtain ⟨hx, -⟩ := isNumber_of_lt h
  exact Int.lt_irrefl _ ((lt_iff hx hx).1 h)

/-- **Less than is transitive** on all patterns, for a NaN is never in the
middle. -/
theorem lt_of_lt_of_lt {x y z : Binary64} (hxy : x < y) (hyz : y < z) : x < z := by
  obtain ⟨hx, hy⟩ := isNumber_of_lt hxy
  obtain ⟨-, hz⟩ := isNumber_of_lt hyz
  rw [lt_iff hx hy] at hxy
  rw [lt_iff hy hz] at hyz
  exact (lt_iff hx hz).2 (Int.lt_trans hxy hyz)

/-- The key of the total order, above the middle for positive patterns and
below it for negative ones. -/
theorem toNat_orderKey (x : Binary64) :
    x.orderKey.toNat = match x.sign with
      | .positive => 2 ^ 63 + x.magnitude
      | .negative => 2 ^ 63 - 1 - x.magnitude := by
  have hlt := x.bits.toNat_lt
  unfold orderKey sign magnitude
  by_cases h : x.bits.toNat < 2 ^ 63
  · have hbits : x.bits < negZero.bits := UInt64.lt_iff_toNat_lt.2 h
    rw [if_pos hbits, if_pos h, UInt64.toNat_xor]
    show x.bits.toNat ^^^ 2 ^ 63 = 2 ^ 63 + x.bits.toNat % 2 ^ 63
    have hdiv : (x.bits.toNat ^^^ 2 ^ 63) / 2 ^ 63 = 1 := by
      rw [Nat.xor_div_two_pow, Nat.div_eq_of_lt h]
      rfl
    have hmod : (x.bits.toNat ^^^ 2 ^ 63) % 2 ^ 63 = x.bits.toNat % 2 ^ 63 := by
      rw [Nat.xor_mod_two_pow, Nat.mod_self, Nat.xor_zero]
    omega
  · have hbits : ¬ x.bits < negZero.bits := fun hbits => h (UInt64.lt_iff_toNat_lt.1 hbits)
    rw [if_neg hbits, if_neg h, UInt64.toNat_not]
    show 2 ^ 64 - 1 - x.bits.toNat = 2 ^ 63 - 1 - x.bits.toNat % 2 ^ 63
    omega

/-- The total order is the order of the keys as natural numbers. -/
theorem totalCmp_eq_compare_toNat (x y : Binary64) :
    Scalar.totalCmp x y = compare x.orderKey.toNat y.orderKey.toNat := by
  show compareOfLessAndEq _ _ = compareOfLessAndEq _ _
  unfold compareOfLessAndEq
  exact if_congr UInt64.lt_iff_toNat_lt rfl (if_congr UInt64.toNat_inj.symm rfl rfl)

/-- **The total order is the order of the grades**, unless it has to tell the
two zeros apart. -/
theorem totalCmp_eq_compare_grade {x y : Binary64}
    (h : x.magnitude = 0 → y.magnitude = 0 → x.sign = y.sign) :
    Scalar.totalCmp x y = compare x.grade y.grade := by
  have hx : x.magnitude < 2 ^ 63 := Nat.mod_lt _ (by decide)
  have hy : y.magnitude < 2 ^ 63 := Nat.mod_lt _ (by decide)
  rw [totalCmp_eq_compare_toNat, ← compare_natCast, toNat_orderKey, toNat_orderKey]
  unfold grade
  cases hsx : x.sign <;> cases hsy : y.sign <;> rw [hsx, hsy] at h <;>
    simp only [Sign.apply, reduceCtorEq, imp_false] at h ⊢ <;>
    refine compare_congr ?_ ?_ <;> omega

end Binary64

end ParetoSelection
