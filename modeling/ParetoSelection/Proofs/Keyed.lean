import Mathlib.Order.Compare
import Mathlib.Order.MinMax
import ParetoSelection.Scalar

/-!
# Values that are compared by keys

The order of numbers is not total in every arithmetic: a NaN is below nothing and
equal to nothing. Whether an algorithm that only compares values finds what it
should depends on the values that it meets and on nothing else. `IsKeyed` says what
is asked of them: among the values of a class, less than and equality are those of
keys from a linear order. Two values may have the same key, as the two zeros have.

The larger and the smaller of two such values are then the ones with the larger and
the smaller key.

Sorting does not ask for that. It has a comparison of its own, which places all values
(`IsTotalBy`).
-/

namespace ParetoSelection

variable {α κ : Type} [Scalar α] [LinearOrder κ]

/-- **Values that are compared by keys**: the values of a class, and their keys. -/
structure IsKeyed (key : α → κ) (known : α → Prop) : Prop where
  /-- Less than is that of the keys. -/
  lt_iff : ∀ {a b : α}, known a → known b → (a < b ↔ key a < key b)
  /-- So is less than or equal. -/
  le_iff : ∀ {a b : α}, known a → known b → (a ≤ b ↔ key a ≤ key b)
  /-- Equality is that of the keys. -/
  beq_iff : ∀ {a b : α}, known a → known b → ((a == b) = true ↔ key a = key b)

namespace IsKeyed

variable {key : α → κ} {known : α → Prop} {a b : α}

/-- A value of the class is equal to itself. -/
theorem bne_self (h : IsKeyed key known) (ha : known a) : (a != a) = false := by
  rw [bne, (h.beq_iff ha ha).2 rfl]
  rfl

/-- The larger of two values is one of them. -/
theorem maxNum_eq (h : IsKeyed key known) (ha : known a) (hb : known b) :
    Scalar.maxNum a b = if key a < key b then b else a := by
  rw [Scalar.maxNum, h.bne_self ha, Bool.or_false]
  exact if_congr (decide_eq_true_iff.trans (h.lt_iff ha hb)) rfl rfl

/-- The smaller of two values is one of them. -/
theorem minNum_eq (h : IsKeyed key known) (ha : known a) (hb : known b) :
    Scalar.minNum a b = if key b < key a then b else a := by
  rw [Scalar.minNum, h.bne_self ha, Bool.or_false]
  exact if_congr (decide_eq_true_iff.trans (h.lt_iff hb ha)) rfl rfl

/-- **The larger of two values has the larger key.** -/
theorem key_maxNum (h : IsKeyed key known) (ha : known a) (hb : known b) :
    key (Scalar.maxNum a b) = max (key a) (key b) := by
  rw [h.maxNum_eq ha hb, apply_ite key]
  split
  · rename_i hlt
    exact (max_eq_right (le_of_lt hlt)).symm
  · rename_i hle
    exact (max_eq_left (not_lt.1 hle)).symm

/-- It is a value of the class. -/
theorem known_maxNum (h : IsKeyed key known) (ha : known a) (hb : known b) :
    known (Scalar.maxNum a b) := by
  rw [h.maxNum_eq ha hb]
  split
  · exact hb
  · exact ha

/-- **The largest of some values** has the largest key. -/
theorem le_key_foldl_maxNum (h : IsKeyed key known) {bs : List α} (ha : known a)
    (hbs : ∀ b ∈ bs, known b) :
    key a ≤ key (bs.foldl Scalar.maxNum a) ∧ ∀ b ∈ bs, key b ≤ key (bs.foldl Scalar.maxNum a) := by
  induction bs generalizing a with
  | nil => exact ⟨le_refl _, fun b hb => absurd hb List.not_mem_nil⟩
  | cons b bs ih =>
    have hb := hbs b List.mem_cons_self
    obtain ⟨hstart, hrest⟩ := ih (h.known_maxNum ha hb)
      fun x hx => hbs x (List.mem_cons_of_mem b hx)
    rw [h.key_maxNum ha hb, max_le_iff] at hstart
    rw [List.foldl_cons]
    refine ⟨hstart.1, fun x hx => ?_⟩
    obtain rfl | hx := List.mem_cons.1 hx
    · exact hstart.2
    · exact hrest x hx

end IsKeyed

/-- **Values that are sorted by keys**: the comparison that places all values is that of the
keys. -/
def IsTotalBy (key : α → κ) : Prop :=
  ∀ a b : α, Scalar.totalCmp a b = compare (key a) (key b)

/-- Values are in order if their keys are. -/
theorem IsTotalBy.totalLE_iff {key : α → κ} (h : IsTotalBy key) {a b : α} :
    Scalar.totalLE a b = true ↔ key a ≤ key b := by
  rw [Scalar.totalLE, h, ← compare_le_iff_le, Ordering.isLE_iff_ne_gt]

end ParetoSelection
