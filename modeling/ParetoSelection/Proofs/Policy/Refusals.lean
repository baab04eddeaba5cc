import ParetoSelection.Proofs.Nsga3.Outcome

/-!
# A refused request has not happened

A policy refuses a request for a reason that is the caller's doing: parameters or
inputs that do not suit it, rows of the wrong width, no first population. Requests
are made one after the other, at the boundary that checks the answers or behind it,
and a refusal is the end of nothing: the policy is in every part the one it was,
generator included, and all later requests are answered as if the refused one had
not been made (`eq_of_isRefusal`).

Refusals are found by the checks that each operation starts with, before anything is
drawn or written; so for most operations any failure leaves the policy alone, fatal
ones included. There are two exceptions, both fatal: a generation of NSGA-III that
finds its own bookkeeping broken, and an answer that does not pass the check at the
boundary, which comes after the fact.
-/

namespace ParetoSelection

variable {α : Type} [Scalar α]

/-- **A refusal**: a failure that is the caller's doing. -/
inductive Failure.IsRefusal : Failure → Prop where
  /-- Parameters or inputs do not suit the policy. -/
  | configuration (cause : ConfigurationCause) : IsRefusal (.error (.configuration cause))
  /-- A row has another number of objectives than expected. -/
  | dimensionMismatch (index expected found : Nat) :
      IsRefusal (.error (.dimensionMismatch index expected found))
  /-- There has been no first population. -/
  | notInitialized : IsRefusal (.error .notInitialized)

/-- A refusal is an error that is reported. -/
theorem Failure.IsRefusal.exists_error {f : Failure} (h : f.IsRefusal) : ∃ e, f = .error e := by
  cases h with
  | configuration cause => exact ⟨_, rfl⟩
  | dimensionMismatch index expected found => exact ⟨_, rfl⟩
  | notInitialized => exact ⟨_, rfl⟩

/-- The errors that do not end the run are refusals. -/
theorem Failure.isRefusal_error_iff {e : SelectionError} :
    IsRefusal (.error e) ↔ e.isFatal = false := by
  constructor
  · rintro ⟨⟩
    · rfl
    · rfl
    · rfl
  · intro h
    cases e with
    | configuration cause => exact .configuration cause
    | dimensionMismatch index expected found => exact .dimensionMismatch index expected found
    | notInitialized => exact .notInitialized
    | violation cause => cases h

/-! ## One policy at a time -/

namespace SingleObjective

variable (m parents children : FitnessMatrix α) (p : SingleObjective)

omit [Scalar α] in
/-- A first population is taken, or nothing changes. -/
theorem start_ok_or : (p.start m).1 = .ok () ∨ (p.start m).2 = p := by
  unfold start
  split
  · exact .inr rfl
  · exact .inl rfl

/-- A parent is drawn, or nothing changes. -/
theorem drawParent_ok_or [SplitMix.Sampler] :
    (∃ i, (p.drawParent m).1 = .ok i) ∨ (p.drawParent m).2 = p := by
  unfold drawParent
  split
  · exact .inr rfl
  · exact .inl ⟨_, rfl⟩

/-- A generation never changes anything. -/
theorem nextGeneration_snd : (p.nextGeneration parents children).2 = p := by
  unfold nextGeneration
  split
  · rfl
  · rfl

end SingleObjective

namespace Nsga2

variable (m parents children : FitnessMatrix α) (p : Nsga2 α)

/-- A parent is drawn, or nothing changes. -/
theorem drawParent_ok_or [SplitMix.Sampler] :
    (∃ i, (p.drawParent m).1 = .ok i) ∨ (p.drawParent m).2 = p := by
  unfold drawParent
  split
  · exact .inr rfl
  · dsimp only
    split
    · exact .inr rfl
    · exact .inl ⟨_, rfl⟩

/-- A generation has its survivors, or nothing changes. -/
theorem nextGeneration_ok_or :
    (∃ kept, (p.nextGeneration parents children).1 = .ok kept)
      ∨ (p.nextGeneration parents children).2 = p := by
  unfold nextGeneration
  split
  · exact .inr rfl
  · exact .inl ⟨_, rfl⟩

end Nsga2

namespace Nsga3

variable (m parents children : FitnessMatrix α) (p : Nsga3 α)

/-- A parent is drawn, or nothing changes. -/
theorem drawParent_ok_or [SplitMix.Sampler] :
    (∃ i, (p.drawParent m).1 = .ok i) ∨ (p.drawParent m).2 = p := by
  unfold drawParent
  split
  · exact .inr rfl
  · dsimp only
    split
    · exact .inr rfl
    · exact .inl ⟨_, rfl⟩

/-- **A generation that is under way is never refused**: it has its survivors, or its
bookkeeping does not hold. -/
theorem Run.advance_ok_or_violation {σ : Type} (draw : Nat → σ → Nat × σ) (settings : Settings)
    (combined : FitnessMatrix α) (r : Run α) (source : σ) :
    (∃ kept, (r.advance draw settings combined source).1 = .ok kept)
      ∨ ∃ cause, (r.advance draw settings combined source).1 = .error (.violation cause) := by
  unfold Run.advance
  dsimp only
  split
  · exact .inr ⟨_, rfl⟩
  · split
    · exact .inr ⟨_, rfl⟩
    · exact .inl ⟨_, rfl⟩

/-- A generation has its survivors, or nothing changes, or its bookkeeping does not
hold. -/
theorem nextGeneration_ok_or [SplitMix.Sampler] :
    (∃ kept, (p.nextGeneration parents children).1 = .ok kept)
      ∨ (∃ cause, (p.nextGeneration parents children).1 = .error (.violation cause))
      ∨ (p.nextGeneration parents children).2 = p := by
  unfold nextGeneration
  split
  · exact .inr (.inr rfl)
  · rename_i r combined hcheck
    obtain hok | hviolation :=
      r.advance_ok_or_violation SplitMix.below p.settings combined p.generator
    · exact .inl hok
    · exact .inr (.inl hviolation)

end Nsga3

namespace Policy

/-! ## Requests to any policy -/

/-- **What a policy can be asked for.** -/
inductive Request (α : Type) where
  /-- To take a first population. -/
  | start (m : FitnessMatrix α)
  /-- To prepare for a generation. -/
  | prepare
  /-- To draw a parent. -/
  | draw (m : FitnessMatrix α)
  /-- To choose the survivors of a generation. -/
  | next (parents children : FitnessMatrix α)

/-- What a policy answers to a request that it grants. -/
inductive Reply where
  /-- There is nothing to say. -/
  | done
  /-- A parent. -/
  | parent (i : Nat)
  /-- The survivors. -/
  | survivors (kept : List Nat)
deriving DecidableEq, Repr

/-- **The answer to a request** and the policy after it, at the boundary if the answer is
to be `checked`, and from the policy itself if not. -/
def perform [SplitMix.Sampler] (checked : Bool) (p : Policy α) :
    Request α → Except Failure Reply × Policy α
  | .start m => ((p.start m).1.map fun _ => .done, (p.start m).2)
  | .prepare => ((p.prepare.1.mapError .error).map fun _ => .done, p.prepare.2)
  | .draw m =>
    let (answer, p) := if checked then p.drawParent m else p.drawUnchecked m
    (answer.map .parent, p)
  | .next parents children =>
    let (answer, p) :=
      if checked then p.nextGeneration parents children else p.nextUnchecked parents children
    ((answer.mapError .error).map .survivors, p)

/-- **The answers to requests that are made one after the other**, some at the boundary
and some behind it, and the policy after them. -/
def run [SplitMix.Sampler] (p : Policy α) :
    List (Bool × Request α) → List (Except Failure Reply) × Policy α
  | [] => ([], p)
  | (checked, q) :: later =>
    let (answer, p) := p.perform checked q
    let (answers, p) := p.run later
    (answer :: answers, p)

variable {p : Policy α} {m parents children : FitnessMatrix α}

/-- **A first population that is not taken changes nothing**, for whatever reason it is not
taken. -/
theorem start_snd (h : (p.start m).1 ≠ .ok ()) : (p.start m).2 = p := by
  cases p with
  | singleObjective p =>
    refine congrArg singleObjective ((p.start_ok_or m).resolve_left fun hok => h ?_)
    show (p.start m).1.mapError Failure.error = .ok ()
    rw [hok]
    rfl
  | nsga2 p =>
    obtain ⟨-, hsame⟩ | ⟨hok, -⟩ := p.start_frame m
    · exact congrArg nsga2 hsame
    · refine absurd ?_ h
      show (p.start m).1.mapError Failure.error = .ok ()
      rw [hok]
      rfl
  | nsga3 p =>
    obtain ⟨-, hsame⟩ | ⟨hok, -⟩ := p.start_cases m
    · exact congrArg nsga3 hsame
    · exact absurd hok h

omit [Scalar α] in
/-- Preparing changes nothing. -/
theorem prepare_snd (p : Policy α) : p.prepare.2 = p := by
  cases p with
  | singleObjective p => rfl
  | nsga2 p => rfl
  | nsga3 p => rfl

/-- **A parent that is not drawn changes nothing.** -/
theorem drawUnchecked_snd [SplitMix.Sampler] {f : Failure} (h : (p.drawUnchecked m).1 = .error f) :
    (p.drawUnchecked m).2 = p := by
  have hnot {i : Nat} : (p.drawUnchecked m).1 ≠ .ok i := fun hok => by cases h.symm.trans hok
  cases p with
  | singleObjective p =>
    obtain ⟨i, hok⟩ | hsame := p.drawParent_ok_or m
    · exact absurd hok hnot
    · exact congrArg singleObjective hsame
  | nsga2 p =>
    obtain ⟨i, hok⟩ | hsame := p.drawParent_ok_or m
    · exact absurd hok hnot
    · exact congrArg nsga2 hsame
  | nsga3 p =>
    obtain ⟨i, hok⟩ | hsame := p.drawParent_ok_or m
    · exact absurd hok hnot
    · exact congrArg nsga3 hsame

/-- **A generation that is refused changes nothing.** -/
theorem nextUnchecked_snd [SplitMix.Sampler] {e : SelectionError}
    (h : (p.nextUnchecked parents children).1 = .error e) (he : e.isFatal = false) :
    (p.nextUnchecked parents children).2 = p := by
  have hnot {kept : List Nat} : (p.nextUnchecked parents children).1 ≠ .ok kept :=
    fun hok => by cases h.symm.trans hok
  cases p with
  | singleObjective p => exact congrArg singleObjective (p.nextGeneration_snd parents children)
  | nsga2 p =>
    obtain ⟨kept, hok⟩ | hsame := p.nextGeneration_ok_or parents children
    · exact absurd hok hnot
    · exact congrArg nsga2 hsame
  | nsga3 p =>
    obtain ⟨kept, hok⟩ | ⟨cause, hviolation⟩ | hsame := p.nextGeneration_ok_or parents children
    · exact absurd hok hnot
    · obtain rfl : e = .violation cause := Except.error.inj (h.symm.trans hviolation)
      cases he
    · exact congrArg nsga3 hsame

/-! ## At the boundary -/

/-- The boundary has no refusals of its own: an answer that it does not accept is a
violation. -/
theorem drawUnchecked_of_drawParent [SplitMix.Sampler] {e : SelectionError}
    (h : (p.drawParent m).1 = .error (.error e)) (he : e.isFatal = false) :
    (p.drawUnchecked m).1 = .error (.error e) := by
  unfold drawParent at h
  dsimp only at h
  cases hanswer : (p.drawUnchecked m).1 with
  | error f =>
    rw [hanswer] at h
    exact h
  | ok i =>
    rw [hanswer] at h
    replace h : checkSelected _ i = .error (.error e) := h
    unfold checkSelected at h
    split at h
    · cases h
      cases he
    · cases h

/-- So are survivors that it does not accept. -/
theorem nextUnchecked_of_nextGeneration [SplitMix.Sampler] {e : SelectionError}
    (h : (p.nextGeneration parents children).1 = .error e) (he : e.isFatal = false) :
    (p.nextUnchecked parents children).1 = .error e := by
  unfold nextGeneration at h
  dsimp only at h
  cases hanswer : (p.nextUnchecked parents children).1 with
  | error f =>
    rw [hanswer] at h
    exact h
  | ok kept =>
    rw [hanswer] at h
    replace h : checkSurvivors _ _ kept = .error e := h
    unfold checkSurvivors at h
    split at h
    · cases h
      cases he
    · split at h
      · cases h
        cases he
      · cases h

/-- **A request that is refused leaves the policy as it was**, at the boundary and behind
it. -/
theorem perform_snd [SplitMix.Sampler] {checked : Bool} {q : Request α} {f : Failure}
    (h : (p.perform checked q).1 = .error f) (hf : f.IsRefusal) :
    (p.perform checked q).2 = p := by
  cases q with
  | start m =>
    refine start_snd fun hok => ?_
    have hfailed := of_map_eq_error h
    rw [hok] at hfailed
    cases hfailed
  | prepare => exact prepare_snd p
  | draw m =>
    have hfailed := of_map_eq_error h
    cases checked with
    | false => exact drawUnchecked_snd hfailed
    | true =>
      obtain ⟨e, rfl⟩ := hf.exists_error
      exact drawUnchecked_snd
        (drawUnchecked_of_drawParent hfailed (Failure.isRefusal_error_iff.1 hf))
  | next parents children =>
    obtain ⟨e, hfailed, rfl⟩ := exists_of_mapError_eq_error (of_map_eq_error h)
    have he := Failure.isRefusal_error_iff.1 hf
    cases checked with
    | false => exact nextUnchecked_snd hfailed he
    | true => exact nextUnchecked_snd (nextUnchecked_of_nextGeneration hfailed he) he

/-- **A refused request has not happened.** Of whatever kind the policy is and in whatever
state, and whatever it is asked for, at the boundary or behind it: if it refuses, it is the
policy that it was, and whatever it is asked for afterwards it answers as if it had not
been asked. A first population that is not taken for any other reason changes nothing
either. -/
theorem eq_of_isRefusal [SplitMix.Sampler] (p : Policy α) :
    (∀ checked q f, (p.perform checked q).1 = .error f → f.IsRefusal →
        (p.perform checked q).2 = p
          ∧ ∀ later, p.run ((checked, q) :: later) = (.error f :: (p.run later).1, (p.run later).2))
      ∧ ∀ m, (p.start m).1 ≠ .ok () → (p.start m).2 = p := by
  refine ⟨fun checked q f h hf => ?_, fun m => start_snd⟩
  have hsame := perform_snd h hf
  refine ⟨hsame, fun later => ?_⟩
  rw [run]
  dsimp only
  rw [h, hsame]

/-- A child that has three objectives. -/
def wideChild : FitnessMatrix Binary64 :=
  #[[⟨0x3ff0000000000000⟩, ⟨0x3ff0000000000000⟩, ⟨0x3ff0000000000000⟩]]

/-- The policy of three members refuses the generation with such a child, and a first
population of one, and is still the same. -/
theorem trioPolicy_eq_of_isRefusal :
    ((nsga3 Nsga3.trioPolicy).perform true (.next Nsga3.trio wideChild)).1
        = .error (.error (.dimensionMismatch 3 2 3))
      ∧ ((nsga3 Nsga3.trioPolicy).perform true (.next Nsga3.trio wideChild)).2
        = nsga3 Nsga3.trioPolicy
      ∧ ((nsga3 Nsga3.trioPolicy).start Nsga3.fourth).2 = nsga3 Nsga3.trioPolicy := by
  have hrefused : ((nsga3 Nsga3.trioPolicy).perform true (.next Nsga3.trio wideChild)).1
      = .error (.error (.dimensionMismatch 3 2 3)) := by decide +kernel
  obtain ⟨hsame, hstart⟩ := eq_of_isRefusal (nsga3 Nsga3.trioPolicy)
  exact ⟨hrefused, (hsame true _ _ hrefused (.dimensionMismatch 3 2 3)).1,
    hstart Nsga3.fourth (by decide +kernel)⟩

end Policy

end ParetoSelection
