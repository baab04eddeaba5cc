import ParetoSelection.Proofs.Binary64.Order

/-!
# Values

A finite pattern stands for a real number, its `value`: the significand times a power of
two. The significand has 53 bits, or fewer if the exponent is the smallest one
(`IsCanonical`), and every such pair of a significand and an exponent comes back from the
pattern that it is put into, unless the exponent is too large and the pattern is infinite
(`reading_packed_ofParts`). The order of the values is the order of the grades
(`value_le_value`).
-/

namespace ParetoSelection

namespace Binary64

open Float.Model
open UnpackedFloat (Sign)

/-- A power of two, as a real number. -/
noncomputable def twoPow (e : ℤ) : ℝ := 2 ^ e

theorem twoPow_pos (e : ℤ) : 0 < twoPow e :=
  zpow_pos two_pos e

/-- The real number that a finite reading stands for, and zero for the others. -/
noncomputable def realOf : UnpackedFloat → ℝ
  | .finite s m e _ => (s.apply m : ℤ) * 2 ^ e
  | _ => 0

/-- **The real number that a finite pattern stands for.** -/
noncomputable def value (x : Binary64) : ℝ :=
  realOf x.reading

/-- A finite number has a finite reading. -/
theorem isFinite_iff_reading {x : Binary64} : x.IsFinite ↔ x.reading.isFinite = true := by
  rw [← unpack_toModel]
  rfl

/-- The value of a pattern that is read as zero. -/
theorem value_of_zero {x : Binary64} {s : Sign} (h : x.reading = .zero s) : x.value = 0 := by
  rw [value, h]
  rfl

/-- The value of a pattern that is read as finite. -/
theorem value_of_finite {x : Binary64} {s : Sign} {m : ℕ} {e : ℤ} {hm : 0 < m}
    (h : x.reading = .finite s m e hm) : x.value = (s.apply m : ℤ) * 2 ^ e := by
  rw [value, h]
  rfl

/-- A sign is a factor. -/
theorem cast_apply (s : Sign) (n : ℤ) : ((s.apply n : ℤ) : ℝ) = (s.apply 1 : ℤ) * n := by
  cases s <;> simp [Sign.apply]

/-- The factor is one or minus one. -/
theorem abs_cast_apply_one (s : Sign) : |((s.apply 1 : ℤ) : ℝ)| = 1 := by
  cases s <;> simp [Sign.apply]

/-! ## Significand and exponent -/

/-- **A significand and an exponent of a double-precision number.** -/
structure IsCanonical (m : ℕ) (e : ℤ) : Prop where
  /-- The significand has at most 53 bits. -/
  lt : m < 2 ^ 53
  /-- The exponent is not below the smallest one. -/
  le : -1074 ≤ e
  /-- Only the smallest exponent goes with fewer bits. -/
  normal : 2 ^ 52 ≤ m ∨ e = -1074

/-- The reading with the given parts, zero if the significand is. -/
def ofParts (s : Sign) (m : ℕ) (e : ℤ) : UnpackedFloat :=
  if h : m = 0 then .zero s else .finite s m e (Nat.pos_of_ne_zero h)

/-- The parts of a reading that is not zero. -/
theorem ofParts_of_pos {s : Sign} {m : ℕ} {e : ℤ} (hm : 0 < m) :
    ofParts s m e = .finite s m e hm :=
  dif_neg (Nat.ne_of_gt hm)

/-- A reading with parts is finite. -/
theorem isFinite_ofParts (s : Sign) (m : ℕ) (e : ℤ) : (ofParts s m e).isFinite = true := by
  unfold ofParts
  split_ifs <;> rfl

/-- What its parts stand for. -/
theorem realOf_ofParts (s : Sign) (m : ℕ) (e : ℤ) :
    realOf (ofParts s m e) = (s.apply m : ℤ) * 2 ^ e := by
  obtain rfl | hm := Nat.eq_zero_or_pos m
  · cases s <;> simp [ofParts, realOf, Sign.apply]
  · rw [ofParts_of_pos hm]
    rfl

/-- **A finite pattern is read as its parts.** -/
theorem IsFinite.reading_eq_ofParts {x : Binary64} (h : x.IsFinite) :
    x.reading = ofParts x.sign x.significand x.exponent := by
  obtain ⟨hzero, hreading⟩ | ⟨-, hpos, hreading⟩ := h.reading_cases
  · have hnone : x.significand = 0 := by
      rw [significand, hzero]
      rfl
    rw [hreading, ofParts, dif_pos hnone]
  · rw [hreading, ofParts_of_pos hpos]

/-- They are a significand and an exponent of the format. -/
theorem isCanonical_parts (x : Binary64) : IsCanonical x.significand x.exponent := by
  have hnormal := x.le_significand_iff
  have hexp : x.exponent = max (x.magnitude / 2 ^ 52 : Nat) 1 - 1075 := rfl
  exact ⟨x.significand_lt, by omega, by omega⟩

/-- The exponent of a finite pattern is not too large. -/
theorem IsFinite.exponent_le {x : Binary64} (h : x.IsFinite) : x.exponent ≤ 971 := by
  have hlt := isFinite_iff.1 h
  have hinf : infiniteMagnitude = 2047 * 2 ^ 52 := rfl
  have hexp : x.exponent = max (x.magnitude / 2 ^ 52 : Nat) 1 - 1075 := rfl
  omega

/-- The value of a finite pattern. -/
theorem IsFinite.value_eq {x : Binary64} (h : x.IsFinite) :
    x.value = (x.sign.apply x.significand : ℤ) * 2 ^ x.exponent := by
  rw [value, h.reading_eq_ofParts, realOf_ofParts]

/-- **No finite pattern is larger** than the powers of two of the format. -/
theorem IsFinite.abs_value_le {x : Binary64} (h : x.IsFinite) : |x.value| ≤ 2 ^ (1024 : ℤ) := by
  have hsig : (x.significand : ℝ) ≤ 2 ^ (53 : ℤ) := by
    exact_mod_cast Nat.le_of_lt x.significand_lt
  have hexp : (2 : ℝ) ^ x.exponent ≤ 2 ^ (971 : ℤ) :=
    zpow_le_zpow_right₀ one_le_two h.exponent_le
  calc |x.value| = x.significand * 2 ^ x.exponent := by
        rw [h.value_eq, cast_apply, mul_assoc, abs_mul, abs_cast_apply_one, one_mul,
          Int.cast_natCast, abs_of_nonneg (by positivity)]
    _ ≤ 2 ^ (53 : ℤ) * 2 ^ (971 : ℤ) := by gcongr
    _ = 2 ^ (1024 : ℤ) := (zpow_add₀ two_ne_zero 53 971).symm

/-! ## Putting parts together -/

/-- A pattern is read as the parts it has. -/
theorem reading_eq_of_parts {x : Binary64} {s : Sign} {m : ℕ} {e : ℤ} (hm : 0 < m)
    (hpos : 0 < x.magnitude) (hlt : x.magnitude < infiniteMagnitude) (hsign : x.sign = s)
    (hsig : x.significand = m) (hexp : x.exponent = e) : x.reading = .finite s m e hm := by
  obtain ⟨_, hreading⟩ := reading_of_between hpos hlt
  subst hsign hsig hexp
  exact hreading

/-- A significand of 53 bits, put together with its exponent. -/
theorem reading_ofComponents_normal (s : Sign) {b m : ℕ} (hb : 0 < b) (hb' : b < 2047)
    (hm : 2 ^ 52 ≤ m) (hm' : m < 2 ^ 53) :
    (ofComponents s (BitVec.ofNat 11 b) (BitVec.ofNat 52 m)).reading
      = .finite s m (b - 1075) (by omega) := by
  have hsign := sign_ofComponents s (BitVec.ofNat 11 b) (BitVec.ofNat 52 m)
  have hmag := magnitude_ofComponents s (BitVec.ofNat 11 b) (BitVec.ofNat 52 m)
  rw [BitVec.toNat_ofNat, BitVec.toNat_ofNat, Nat.mod_eq_of_lt (by omega : b < 2 ^ 11)] at hmag
  generalize ofComponents s (BitVec.ofNat 11 b) (BitVec.ofNat 52 m) = x at hsign hmag ⊢
  have hinf : infiniteMagnitude = 2047 * 2 ^ 52 := rfl
  refine reading_eq_of_parts _ (by omega) (by omega) hsign ?_ ?_
  · rw [significand, hmag]
    split <;> omega
  · rw [exponent, hmag]
    omega

/-- A significand of fewer bits, put together with the smallest exponent. -/
theorem reading_ofComponents_subnormal (s : Sign) {m : ℕ} (hm : 0 < m) (hm' : m < 2 ^ 52) :
    (ofComponents s 0#11 (BitVec.ofNat 52 m)).reading = .finite s m (-1074) hm := by
  have hsign := sign_ofComponents s 0#11 (BitVec.ofNat 52 m)
  have hmag := magnitude_ofComponents s 0#11 (BitVec.ofNat 52 m)
  rw [BitVec.toNat_ofNat, BitVec.toNat_ofNat, Nat.zero_mod, Nat.mod_eq_of_lt hm'] at hmag
  generalize ofComponents s 0#11 (BitVec.ofNat 52 m) = x at hsign hmag ⊢
  have hinf : infiniteMagnitude = 2047 * 2 ^ 52 := rfl
  refine reading_eq_of_parts _ (by omega) (by omega) hsign ?_ ?_
  · rw [significand, hmag]
    split <;> omega
  · rw [exponent, hmag]
    omega

/-- Infinity, put together. -/
theorem reading_packed_infinity (s : Sign) : (packed (.infinity s)).reading = .infinity s := by
  cases s <;> rfl

/-- Zero, put together. -/
theorem reading_packed_zero (s : Sign) : (packed (.zero s)).reading = .zero s := by
  cases s <;> rfl

/-- **Parts come back from the pattern that they are put into**, unless the exponent is
too large. -/
theorem reading_packed_ofParts (s : Sign) {m : ℕ} {e : ℤ} (h : IsCanonical m e) :
    (packed (ofParts s m e)).reading = if e ≤ 971 then ofParts s m e else .infinity s := by
  obtain ⟨hlt, hmin, hnormal⟩ := h
  obtain ⟨b, rfl⟩ : ∃ b : ℕ, e = b - 1075 := ⟨(e + 1075).toNat, by omega⟩
  obtain rfl | hm := Nat.eq_zero_or_pos m
  · have hzero : ofParts s 0 (b - 1075) = .zero s := dif_pos rfl
    rw [if_pos (by omega), hzero, reading_packed_zero]
  have hbias : ((b : ℤ) - 1075 + Format.binary64.exponentBias
      + Format.binary64.mantissaBitsWithoutImplicit).toNat = b := by
    show ((b : ℤ) - 1075 + 1023 + 52).toNat = b
    omega
  have hover : 2 ^ Format.binary64.exponentBits ≤ b + 1 ↔ ¬ (b : ℤ) - 1075 ≤ 971 := by
    show 2 ^ 11 ≤ b + 1 ↔ _
    omega
  have hfull : m.log2 + 1 = Format.binary64.mantissaBits ↔ 2 ^ 52 ≤ m := by
    have hlog := (Nat.log2_lt (Nat.ne_of_gt hm)).2 hlt
    show m.log2 + 1 = 53 ↔ _
    rw [← Nat.le_log2 (Nat.ne_of_gt hm)]
    omega
  rw [ofParts_of_pos hm]
  unfold packed UnpackedFloat.pack
  dsimp only
  rw [hbias]
  by_cases he : (b : ℤ) - 1075 ≤ 971
  · rw [if_neg (mt hover.1 (not_not.2 he)), if_pos he]
    by_cases hbits : 2 ^ 52 ≤ m
    · rw [if_pos (hfull.2 hbits)]
      exact reading_ofComponents_normal s (by omega) (by omega) hbits hlt
    · rw [if_neg (mt hfull.1 hbits)]
      obtain rfl : b = 1 := by omega
      exact reading_ofComponents_subnormal s hm (by omega)
  · rw [if_pos (hover.2 he), if_neg he]
    exact reading_packed_infinity s

/-! ## The order of values -/

/-- **A larger magnitude is a larger number.** -/
theorem significand_mul_le {x y : Binary64} (h : x.magnitude ≤ y.magnitude) :
    (x.significand : ℝ) * 2 ^ x.exponent ≤ y.significand * 2 ^ y.exponent := by
  -- on the exponent `-1075`, which is below all
  have hparts (z : Binary64) : (z.significand : ℝ) * 2 ^ z.exponent
      = ((z.significand <<< (z.exponent - -1075).toNat : ℕ) : ℝ) * 2 ^ (-1075 : ℤ) := by
    obtain ⟨k, hk⟩ : ∃ k : ℕ, z.exponent = -1075 + k :=
      ⟨(z.exponent + 1075).toNat, by have := z.isCanonical_parts.le; omega⟩
    have hk' : (z.exponent - -1075).toNat = k := by omega
    rw [hk', hk, Nat.shiftLeft_eq, zpow_add₀ two_ne_zero, zpow_natCast]
    push_cast
    ring
  have hmin := x.isCanonical_parts.le
  rw [hparts x, hparts y]
  refine mul_le_mul_of_nonneg_right ?_ (by positivity)
  exact_mod_cast significand_shiftLeft_le h (by omega)

/-- A pattern of magnitude zero has value zero. -/
theorem value_eq_zero {x : Binary64} (h : x.magnitude = 0) : x.value = 0 :=
  value_of_zero (reading_of_zero h)

/-- **A larger grade is a larger value.** -/
theorem value_le_value {x y : Binary64} (hx : x.IsFinite) (hy : y.IsFinite)
    (h : x.grade ≤ y.grade) : x.value ≤ y.value := by
  have hpos (z : Binary64) : (0 : ℝ) ≤ z.significand * 2 ^ z.exponent := by positivity
  have hle (h : x.magnitude ≤ y.magnitude) := significand_mul_le h
  have hge (h : y.magnitude ≤ x.magnitude) := significand_mul_le h
  have hxzero (h : x.magnitude = 0) := value_eq_zero h
  have hyzero (h : y.magnitude = 0) := value_eq_zero h
  rw [hx.value_eq] at hxzero ⊢
  rw [hy.value_eq] at hyzero ⊢
  unfold grade at h
  cases hsx : x.sign <;> cases hsy : y.sign <;> rw [hsx, hsy] at h <;>
    simp only [hsx, hsy, Sign.apply, Int.cast_neg, Int.cast_natCast, neg_mul] at h hxzero hyzero ⊢
  · exact neg_le_neg (hge (by omega))
  · exact (neg_nonpos.2 (hpos x)).trans (hpos y)
  · exact le_of_eq ((hxzero (by omega)).trans (hyzero (by omega)).symm)
  · exact hle (by omega)

end Binary64

end ParetoSelection
