import ParetoSelection.SplitMix

/-!
# What is drawn is in range

A generator returns for every state *some* word, and nothing is known of which.
What is known is that an index drawn below `n` is below `n` (`below_lt`), in whatever way
it is drawn.

Draws are made one after the other, each from the generator that the one before has left
(`series`).
-/

namespace ParetoSelection

namespace SplitMix

/-- **An index drawn below `n` is below `n`.** -/
theorem below_lt [Sampler] {n : Nat} (hn : 0 < n) (g : SplitMix) : (below n g).1 < n :=
  Sampler.draw_lt hn g

/-! ## Several draws -/

variable {β : Type}

/-- **What several draws give**, one after the other, and the generator after them. -/
def series (draw : SplitMix → β × SplitMix) : (count : Nat) → SplitMix → List β × SplitMix
  | 0, g => ([], g)
  | count + 1, g =>
    let (x, g) := draw g
    let (xs, g) := series draw count g
    (x :: xs, g)

/-- **Indices drawn below `n`**, one after the other, are below `n`. -/
theorem lt_of_mem_series_below [Sampler] {n : Nat} (hn : 0 < n) (count : Nat) (g : SplitMix) :
    ∀ i ∈ (series (below n) count g).1, i < n := by
  induction count generalizing g with
  | zero => exact fun i hi => absurd hi List.not_mem_nil
  | succ count ih => exact List.forall_mem_cons.2 ⟨below_lt hn g, ih (below n g).2⟩

end SplitMix

end ParetoSelection
