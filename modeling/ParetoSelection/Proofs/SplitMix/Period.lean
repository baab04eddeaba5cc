import Mathlib.Data.List.Nodup
import Mathlib.Logic.ExistsUnique
import ParetoSelection.Proofs.SplitMix

/-!
# The period of the generator

A step adds an odd constant to the state. An odd word has an inverse among the words, so the
number of steps between two states can be read off their difference: it is determined up to
the number of all words (`after_eq_after_iff`), and there always is one (`exists_after_eq`).
The states therefore come in one circle of all words.

An output is the scrambled state, and nothing of the state is lost in it. Scrambling combines
a word with its own upper part, three times, and multiplies in between by odd constants. Both
can be undone: the lower part of a word is restored from the upper part, which is as it was,
and a product by the inverse of the constant. `unmix` does so in the opposite order, and it is
an inverse on both sides (`unmix_mix`, `mix_unmix`).

So outputs repeat when states do, which is after all words and not before
(`nodup_series_next`).
-/

namespace ParetoSelection

namespace SplitMix

/-! ## Scrambling can be undone -/

/-- A word combined with its upper part, the lowest `s` bits left out. -/
def spread (s z : UInt64) : UInt64 :=
  z ^^^ (z >>> s)

/-- The word that has been combined with its upper part. What is added to it twice in the
attempt cancels out, and what is added a third time has been shifted out. -/
def gather (s z : UInt64) : UInt64 :=
  z ^^^ (z >>> s) ^^^ (z >>> s >>> s)

/-- Nothing is left of a word that has been shifted by a third of its length three times. -/
theorem shiftRight_three {s : UInt64} (hs : s < 64) (hthird : 64 ≤ 3 * s.toNat) (z : UInt64) :
    z >>> s >>> s >>> s = 0 := by
  have hmod : s.toNat % 64 = s.toNat := Nat.mod_eq_of_lt (UInt64.lt_iff_toNat_lt.1 hs)
  refine UInt64.toNat_inj.1 ?_
  rw [UInt64.toNat_shiftRight, UInt64.toNat_shiftRight, UInt64.toNat_shiftRight, hmod,
    ← Nat.shiftRight_add, ← Nat.shiftRight_add, UInt64.toNat_zero]
  refine Nat.shiftRight_eq_zero _ _ (Nat.lt_of_lt_of_le (UInt64.toNat_lt z) ?_)
  exact Nat.pow_le_pow_right Nat.two_pos (by omega)

/-- Gathering undoes spreading. -/
theorem gather_spread {s : UInt64} (hs : s < 64) (hthird : 64 ≤ 3 * s.toNat) (z : UInt64) :
    gather s (spread s z) = z := by
  unfold gather spread
  rw [UInt64.shiftRight_xor, UInt64.shiftRight_xor, shiftRight_three hs hthird, UInt64.xor_zero,
    UInt64.xor_assoc, UInt64.xor_assoc, UInt64.xor_assoc, UInt64.xor_self, UInt64.xor_zero,
    UInt64.xor_self, UInt64.xor_zero]

/-- Spreading undoes gathering. -/
theorem spread_gather {s : UInt64} (hs : s < 64) (hthird : 64 ≤ 3 * s.toNat) (z : UInt64) :
    spread s (gather s z) = z := by
  unfold gather spread
  rw [UInt64.shiftRight_xor, UInt64.shiftRight_xor, shiftRight_three hs hthird, UInt64.xor_zero,
    UInt64.xor_assoc z, UInt64.xor_assoc z, UInt64.xor_self, UInt64.xor_zero]

/-- **The state behind an output.** -/
def unmix (w : UInt64) : UInt64 :=
  gather 30 (gather 27 (gather 31 w * 0x319642b2d24d8ec3) * 0x96de1b173f119089)

/-- Scrambling is spreading by three different shifts, with products in between. -/
theorem mix_eq (z : UInt64) :
    mix z = spread 31 (spread 27 (spread 30 z * 0xbf58476d1ce4e5b9) * 0x94d049bb133111eb) :=
  rfl

/-- A product with a word is undone by its inverse. -/
theorem mul_mul_inverse {c d : UInt64} (h : c * d = 1) (z : UInt64) : z * c * d = z := by
  rw [UInt64.mul_assoc, h, UInt64.mul_one]

/-- **Scrambling loses nothing.** -/
theorem unmix_mix (z : UInt64) : unmix (mix z) = z := by
  rw [mix_eq, unmix, gather_spread (by decide) (by decide), mul_mul_inverse (by decide),
    gather_spread (by decide) (by decide), mul_mul_inverse (by decide),
    gather_spread (by decide) (by decide)]

/-- **Every word is an output.** -/
theorem mix_unmix (w : UInt64) : mix (unmix w) = w := by
  rw [mix_eq, unmix, spread_gather (by decide) (by decide), mul_mul_inverse (by decide),
    spread_gather (by decide) (by decide), mul_mul_inverse (by decide),
    spread_gather (by decide) (by decide)]

/-- **Scrambling is one-to-one** on words. -/
theorem bijective_mix : Function.Bijective mix :=
  Function.bijective_iff_has_inverse.2 ⟨unmix, unmix_mix, mix_unmix⟩

/-! ## All states come by -/

/-- The generator after a number of steps. -/
def after (count : Nat) (g : SplitMix) : SplitMix :=
  ⟨g.state + UInt64.ofNat count * gamma⟩

/-- After no steps it is the same. -/
theorem after_zero (g : SplitMix) : after 0 g = g := by
  show SplitMix.mk (g.state + 0 * gamma) = g
  rw [UInt64.zero_mul, UInt64.add_zero]

/-- One more step. -/
theorem after_step (count : Nat) (g : SplitMix) : after count g.step = after (count + 1) g := by
  unfold after step
  rw [UInt64.ofNat_add, UInt64.add_mul, UInt64.add_assoc, UInt64.add_comm gamma]
  rfl

/-- **Two numbers of steps lead to the same state** if they differ by a number of circles. -/
theorem after_eq_after_iff {i j : Nat} {g : SplitMix} :
    after i g = after j g ↔ i % words = j % words := by
  have hwords : UInt64.ofNat i = UInt64.ofNat j ↔ i % words = j % words := by
    rw [UInt64.ofNat_eq_iff_mod_eq_toNat, UInt64.toNat_ofNat']
    rfl
  rw [← hwords, after, after, SplitMix.mk.injEq, UInt64.add_right_inj]
  refine ⟨fun h => ?_, fun h => h ▸ rfl⟩
  have hinverse : gamma * 0xf1de83e19937733d = 1 := by decide
  rw [← mul_mul_inverse hinverse (UInt64.ofNat i), h, mul_mul_inverse hinverse]

/-- Every state comes by within a circle. -/
theorem exists_after_eq (g s : SplitMix) : ∃ i < words, after i g = s := by
  refine ⟨((s.state - g.state) * 0xf1de83e19937733d).toNat, UInt64.toNat_lt _, ?_⟩
  unfold after
  rw [UInt64.ofNat_toNat, mul_mul_inverse (by decide), UInt64.add_comm, UInt64.sub_add_cancel]

/-! ## Outputs -/

/-- **Outputs that follow each other** are the scrambled states, from the first step on. -/
theorem series_next_eq (count : Nat) (g : SplitMix) :
    series next count g
      = ((List.range count).map fun i => mix (after (i + 1) g).state, after count g) := by
  induction count generalizing g with
  | zero => rw [after_zero, series, List.range_zero, List.map_nil]
  | succ count ih =>
    have hfirst : g.step = after 1 g := by rw [← after_step, after_zero]
    rw [series]
    dsimp only [next]
    rw [ih, List.range_succ_eq_map, List.map_cons, List.map_map, after_step]
    refine Prod.ext (congrArg₂ List.cons (by rw [hfirst]) ?_) rfl
    exact List.map_congr_left fun i _ => by rw [Function.comp_apply, after_step]

/-- **Two generators have the same next output** exactly if they are the same. -/
theorem next_eq_next_iff {g g' : SplitMix} : g.next.1 = g'.next.1 ↔ g = g' := by
  refine ⟨fun h => congrArg SplitMix.mk ?_, fun h => h ▸ rfl⟩
  exact (UInt64.add_left_inj gamma).1 (bijective_mix.injective h)

/-- An output is repeated where the number of steps is the same up to circles. -/
theorem mix_after_eq_iff {i j : Nat} {g : SplitMix} :
    mix (after i g).state = mix (after j g).state ↔ i % words = j % words := by
  rw [← after_eq_after_iff (g := g), bijective_mix.injective.eq_iff]
  exact ⟨fun h => congrArg SplitMix.mk h, fun h => congrArg SplitMix.state h⟩

/-- **Outputs that follow each other are different** as long as there are no more of them
than words. -/
theorem nodup_map_mix_iff {count : Nat} {g : SplitMix} :
    ((List.range count).map fun i => mix (after (i + 1) g).state).Nodup ↔ count ≤ words := by
  rw [List.nodup_map_iff_inj_on List.nodup_range]
  constructor
  · -- otherwise the first output comes again after a circle
    intro h
    refine Nat.le_of_not_lt fun hlt => absurd (h 0 ?_ words ?_ ?_) (by decide)
    · exact List.mem_range.2 (Nat.lt_of_le_of_lt (Nat.zero_le _) hlt)
    · exact List.mem_range.2 hlt
    · exact mix_after_eq_iff.2 (by rw [Nat.zero_add, Nat.add_mod_left])
  · intro hle i hi j hj h
    have hi := List.mem_range.1 hi
    have hj := List.mem_range.1 hj
    have hmod := mix_after_eq_iff.1 h
    unfold words at hle hmod
    omega

/-- **The generator never repeats within its period.** From any state on, outputs that follow
each other are pairwise different as long as there are no more of them than words. After as
many as there are words the generator is in the state in which it was, and by then it has
been in every state, at one moment each, and every word has been an output. Scrambling is a
bijection on words, so two generators have the same next output exactly if they are in the
same state. -/
theorem nodup_series_next (g : SplitMix) :
    (∀ count, (series next count g).1.Nodup ↔ count ≤ words)
      ∧ (series next words g).2 = g
      ∧ (∀ w, w ∈ (series next words g).1)
      ∧ (∀ s, ∃! count, count < words ∧ (series next count g).2 = s)
      ∧ Function.Bijective mix
      ∧ ∀ g' : SplitMix, g.next.1 = g'.next.1 ↔ g = g' := by
  refine ⟨fun count => ?_, ?_, fun w => ?_, fun s => ?_, bijective_mix, fun g' => next_eq_next_iff⟩
  · rw [series_next_eq]
    exact nodup_map_mix_iff
  · have hcircle : after words g = after 0 g :=
      after_eq_after_iff.2 ((Nat.mod_self words).trans (Nat.zero_mod words).symm)
    rw [series_next_eq, hcircle, after_zero]
  · rw [series_next_eq, List.mem_map]
    obtain ⟨i, hi, hafter⟩ := exists_after_eq g.step ⟨unmix w⟩
    rw [after_step] at hafter
    exact ⟨i, List.mem_range.2 hi, by rw [hafter, mix_unmix]⟩
  · simp only [series_next_eq]
    obtain ⟨i, hi, rfl⟩ := exists_after_eq g s
    refine ⟨i, ⟨hi, rfl⟩, fun j hj => ?_⟩
    have hmod := after_eq_after_iff.1 hj.2
    rwa [Nat.mod_eq_of_lt hi, Nat.mod_eq_of_lt hj.1] at hmod

/-- The first output from the state zero. -/
example : (⟨0⟩ : SplitMix).next.1 = 0xe220a8397b1dcdaf := by decide

end SplitMix

end ParetoSelection
