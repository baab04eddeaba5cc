import ParetoSelection.Fitness

/-!
# Rows of equal length

`objectiveCount` accepts exactly the matrices with a row, an objective, and
rows of equal length, and what it returns is that length.

It is the first of the checks that a request has to pass. They are made one
after the other, and what is known once all have passed is collected check by
check, by `exists_of_bind_eq_ok` and `of_guard_eq_ok`.
-/

namespace ParetoSelection

/-! ## Checks in sequence -/

section Checks

variable {ε ε' β γ : Type}

/-- What comes second has gone well if both together have. -/
theorem exists_of_bind_eq_ok {first : Except ε β} {second : β → Except ε γ} {c : γ}
    (h : first >>= second = .ok c) : ∃ b, first = .ok b ∧ second b = .ok c := by
  cases first with
  | error e => cases h
  | ok b => exact ⟨b, rfl, h⟩

/-- What comes after a refusal is only reached if there is no reason to refuse. -/
theorem of_guard_eq_ok {reason : Prop} [Decidable reason] {e : ε} {after : Unit → Except ε γ}
    {c : γ} (h : (if reason then (.error e : Except ε Unit) >>= after else after ()) = .ok c) :
    ¬ reason ∧ after () = .ok c := by
  by_cases hreason : reason
  · rw [if_pos hreason] at h
    cases h
  · rw [if_neg hreason] at h
    exact ⟨hreason, h⟩

/-- What has gone well has gone well whatever refusals are called. -/
theorem of_mapError_eq_ok {first : Except ε β} {f : ε → ε'} {b : β}
    (h : first.mapError f = .ok b) : first = .ok b := by
  cases first with
  | error e => cases h
  | ok b' => rw [Except.ok.inj h]

/-- What has gone well with another answer in place has gone well, and its answer was
replaced. -/
theorem exists_of_map_eq_ok {first : Except ε β} {f : β → γ} {c : γ}
    (h : first.map f = .ok c) : ∃ b, first = .ok b ∧ f b = c := by
  cases first with
  | error e => cases h
  | ok b => exact ⟨b, rfl, Except.ok.inj h⟩

/-- What is refused under other words was refused. -/
theorem exists_of_mapError_eq_error {first : Except ε β} {f : ε → ε'} {e' : ε'}
    (h : first.mapError f = .error e') : ∃ e, first = .error e ∧ f e = e' := by
  cases first with
  | error e => exact ⟨e, rfl, Except.error.inj h⟩
  | ok b => cases h

/-- What is refused with another answer in place was refused. -/
theorem of_map_eq_error {first : Except ε β} {f : β → γ} {e : ε}
    (h : first.map f = .error e) : first = .error e := by
  cases first with
  | error e' => rw [Except.error.inj h]
  | ok b => cases h

end Checks

/-! ## The number of objectives -/

namespace FitnessMatrix

variable {α : Type} {m : FitnessMatrix α} {dim : Nat}

/-- A candidate's row is a row of the matrix. -/
theorem row_mem {i : Nat} (hi : i < m.size) : m.row i ∈ m := by
  rw [row, Array.getD_eq_getD_getElem?, Array.getElem?_eq_getElem hi, Option.getD_some]
  exact Array.getElem_mem hi

/-- The first row has as many objectives as any. -/
theorem width_eq (hne : 0 < m.size) (h : ∀ row ∈ m, row.length = dim) : m.width = dim :=
  h _ (row_mem hne)

/-- No row is empty where all have an objective. -/
theorem row_ne_nil (h : ∀ row ∈ m, row.length = dim) (hdim : 0 < dim) {i : Nat} (hi : i < m.size) :
    m.row i ≠ [] := by
  rw [← List.length_pos_iff, h _ (row_mem hi)]
  exact hdim

/-- **A matrix of equal rows is accepted.** -/
theorem objectiveCount_eq_ok (hne : 0 < m.size) (h : ∀ row ∈ m, row.length = dim)
    (hdim : 0 < dim) : m.objectiveCount = .ok dim := by
  have hwidth := width_eq hne h
  have hempty : ¬ m.isEmpty = true := by
    rw [Array.isEmpty_iff_size_eq_zero]
    exact Nat.ne_of_gt hne
  have hnone : m.findIdx? (fun row => row.length ≠ m.width) = none := by
    rw [Array.findIdx?_eq_none_iff]
    intro row hrow
    rw [hwidth, h row hrow, decide_eq_false_iff_not]
    exact not_not_intro rfl
  unfold objectiveCount
  rw [if_neg hempty, if_neg (by rw [hwidth]; exact Nat.ne_of_gt hdim), hnone, hwidth]

/-- **An accepted matrix has equal rows**, and the number is their length. -/
theorem of_objectiveCount_eq_ok (h : m.objectiveCount = .ok dim) :
    0 < m.size ∧ m.width = dim ∧ ∀ row ∈ m, row.length = dim := by
  unfold objectiveCount at h
  split at h
  · cases h
  · rename_i hempty
    split at h
    · cases h
    · split at h
      · cases h
      · rename_i hnone
        obtain rfl : m.width = dim := Except.ok.inj h
        refine ⟨?_, rfl, fun row hrow => ?_⟩
        · rw [Array.isEmpty_iff_size_eq_zero] at hempty
          exact Nat.pos_of_ne_zero hempty
        · have hlen := (Array.findIdx?_eq_none_iff.1 hnone) row hrow
          exact Decidable.of_not_not (of_decide_eq_false hlen)

end FitnessMatrix

end ParetoSelection
