import ParetoSelection.Proofs.Policy.Reachable

/-!
# Requests to NSGA-III, one after the other

A policy is asked for one thing after another, by requests that it grants or refuses.
What a run knows depends on the matrices that it has looked at, and not all of them
are remembered by the policy itself. So a `Session` is a policy along with the past of
its run: the first population that was taken last, and the combined matrix of every
generation since then that passed the checks, also of one that has no survivors.
Tournaments may be held elsewhere at the same time, so the generator may be in any state
whenever a request is made (`Request.reseed`).

Of all requests only two change the run: a first population that is taken begins a new
one, and a generation that passes the checks continues it (`Session.perform_cases`). So
a property of the past and the run that first populations establish and generations
keep holds after any requests (`Session.invariant`).
-/

namespace ParetoSelection

variable {α : Type} [Scalar α]

namespace Nsga3

/-- **What a policy can be asked for.** -/
inductive Request (α : Type) where
  /-- To take a first population. -/
  | start (m : FitnessMatrix α)
  /-- To prepare for a generation. -/
  | prepare
  /-- To draw a parent. -/
  | draw (m : FitnessMatrix α)
  /-- To choose the survivors of a generation. -/
  | next (parents children : FitnessMatrix α)
  /-- To have its generator in another state. -/
  | reseed (g : SplitMix)

/-- What a policy answers to a request that it grants. -/
inductive Reply where
  /-- There is nothing to say. -/
  | done
  /-- A parent. -/
  | parent (i : Nat)
  /-- The survivors. -/
  | survivors (kept : List Nat)
deriving DecidableEq, Repr

/-- **The answer to a request**, and the policy after it. -/
def perform [SplitMix.Sampler] (p : Nsga3 α) : Request α → Except Failure Reply × Nsga3 α
  | .start m => ((p.start m).1.map fun _ => .done, (p.start m).2)
  | .prepare => ((p.prepare.1.mapError .error).map fun _ => .done, p.prepare.2)
  | .draw m => ((p.drawParent m).1.map .parent, (p.drawParent m).2)
  | .next parents children =>
    (((p.nextGeneration parents children).1.mapError .error).map .survivors,
      (p.nextGeneration parents children).2)
  | .reseed g => (.ok .done, { p with generator := g })

/-- The matrices that a run has looked at, after a request. -/
def pastAfter (p : Nsga3 α) (past : List (FitnessMatrix α)) :
    Request α → List (FitnessMatrix α)
  | .start m =>
    match (p.start m).1 with
    | .ok () => [m]
    | .error _ => past
  | .next parents children =>
    match checkNext parents children p with
    | .ok (_, combined) => past ++ [combined]
    | .error _ => past
  | .prepare | .draw _ | .reseed _ => past

omit [Scalar α] in
/-- A new policy has its settings, which are in order, and no run. -/
theorem of_create_eq_ok {settings : Settings} {shared rest : SplitMix} {p : Nsga3 α}
    (h : create settings shared = .ok (p, rest)) :
    p.settings = settings ∧ p.run = none ∧ 2 ≤ settings.populationSize
      ∧ settings.divisions ≠ some 0 := by
  obtain ⟨⟨own, shared⟩, hgenerator, hcreated⟩ := exists_of_map_eq_ok h
  obtain ⟨hsize, -, hdivisions⟩ :=
    Policy.of_validate_eq_ok (Policy.validate_of_generator hgenerator)
  cases hcreated
  exact ⟨rfl, rfl, hsize, hdivisions⟩

/-- **A policy and the past of its run.** -/
structure Session (α : Type) where
  /-- The policy. -/
  policy : Nsga3 α
  /-- The first population of the run, and the combined matrices of its generations. -/
  past : List (FitnessMatrix α)

namespace Session

/-- A policy that has not been asked for anything. -/
def ofPolicy (p : Nsga3 α) : Session α :=
  ⟨p, []⟩

/-- The session after a request. -/
def perform [SplitMix.Sampler] (s : Session α) (q : Request α) : Session α :=
  ⟨(s.policy.perform q).2, pastAfter s.policy s.past q⟩

/-- **The session after some requests.** -/
def run [SplitMix.Sampler] (s : Session α) (requests : List (Request α)) : Session α :=
  requests.foldl perform s

/-- **All rows that the run has looked at.** -/
def seen (s : Session α) : List (List α) :=
  s.past.flatMap Array.toList

/-- **What a request does**: it leaves the run and its past alone, or begins a run with a
first population, or continues the run with a generation. The settings stay the same. -/
theorem perform_cases [SplitMix.Sampler] (s : Session α) (q : Request α) :
    (s.perform q).policy.settings = s.policy.settings
      ∧ (((s.perform q).past = s.past ∧ (s.perform q).policy.run = s.policy.run)
        ∨ (∃ m r, q = .start m ∧ (s.policy.start m).1 = .ok ()
          ∧ checkStart m s.policy = .ok () ∧ Run.ofPopulation s.policy.settings m = .ok r
          ∧ (s.perform q).past = [m] ∧ (s.perform q).policy.run = some r)
        ∨ ∃ parents children r, checkNext parents children s.policy = .ok (r, parents ++ children)
          ∧ (s.perform q).past = s.past ++ [parents ++ children]
          ∧ (s.perform q).policy.run
            = some (r.advance SplitMix.below s.policy.settings (parents ++ children)
                s.policy.generator).2.1) := by
  cases q with
  | start m =>
    unfold perform Nsga3.perform pastAfter
    dsimp only
    obtain ⟨hrefused, hsame⟩ | ⟨hok, hcheck, r, hrun, hafter⟩ := s.policy.start_cases m
    · rw [hsame]
      refine ⟨rfl, .inl ⟨?_, rfl⟩⟩
      split
      · rename_i hok
        exact absurd hok hrefused
      · rfl
    · rw [hok, hafter]
      exact ⟨rfl, .inr (.inl ⟨m, r, rfl, hok, hcheck, hrun, rfl, rfl⟩)⟩
  | prepare => exact ⟨rfl, .inl ⟨rfl, rfl⟩⟩
  | draw m =>
    obtain ⟨hsettings, hrun⟩ := s.policy.drawParent_frame m
    exact ⟨hsettings, .inl ⟨rfl, hrun⟩⟩
  | next parents children =>
    unfold perform Nsga3.perform pastAfter nextGeneration
    dsimp only
    cases hcheck : checkNext parents children s.policy with
    | error e => exact ⟨rfl, .inl ⟨rfl, rfl⟩⟩
    | ok checked =>
      obtain ⟨r, combined⟩ := checked
      obtain ⟨-, rfl, -⟩ := of_checkNext_eq_ok hcheck
      exact ⟨rfl, .inr (.inr ⟨parents, children, r, hcheck, rfl, rfl⟩)⟩
  | reseed g => exact ⟨rfl, .inl ⟨rfl, rfl⟩⟩

/-- A first population that is taken is the past of its run. -/
theorem past_perform_start [SplitMix.Sampler] {s : Session α} {m : FitnessMatrix α}
    (h : (s.policy.start m).1 = .ok ()) : (s.perform (.start m)).past = [m] := by
  unfold perform pastAfter
  dsimp only
  rw [h]

/-- No request changes the settings. -/
theorem settings_run [SplitMix.Sampler] (s : Session α) (requests : List (Request α)) :
    (s.run requests).policy.settings = s.policy.settings := by
  induction requests generalizing s with
  | nil => rfl
  | cons q requests ih => exact (ih (s.perform q)).trans (s.perform_cases q).1

/-- **A property of runs and their pasts**, for given settings, that first populations
establish and generations keep. -/
structure IsInvariant [SplitMix.Sampler] (settings : Settings)
    (P : List (FitnessMatrix α) → Run α → Prop) :
    Prop where
  /-- It holds of the run of a first population. -/
  opening : ∀ {m : FitnessMatrix α} {r : Run α}, m.size = settings.populationSize →
    m.objectiveCount = .ok m.width → 2 ≤ m.width → Run.ofPopulation settings m = .ok r → P [m] r
  /-- A generation keeps it, wherever its draws come from. -/
  generation : ∀ {past : List (FitnessMatrix α)} {r : Run α} {parents children : FitnessMatrix α}
    (g : SplitMix), P past r → parents.size = settings.populationSize →
    (parents ++ children).objectiveCount = .ok r.dim →
    P (past ++ [parents ++ children])
      (r.advance SplitMix.below settings (parents ++ children) g).2.1

variable {settings : Settings} {P : List (FitnessMatrix α) → Run α → Prop}

/-- **A request keeps what generations keep.** -/
theorem IsInvariant.perform [SplitMix.Sampler] (hP : IsInvariant settings P) {s : Session α}
    (hsettings : s.policy.settings = settings) (h : ∀ r, s.policy.run = some r → P s.past r)
    (q : Request α) : ∀ r, (s.perform q).policy.run = some r → P (s.perform q).past r := by
  intro r hr
  obtain ⟨-, ⟨hpast, hrun⟩ | ⟨m, r', -, -, hcheck, hopened, hpast, hrun⟩
    | ⟨parents, children, r', hcheck, hpast, hrun⟩⟩ := s.perform_cases q
  · rw [hpast]
    exact h r (hrun.symm.trans hr)
  · obtain rfl : r' = r := Option.some.inj (hrun.symm.trans hr)
    obtain ⟨hcount, hwidth, hsize⟩ := of_checkStart_eq_ok hcheck
    rw [hpast]
    rw [hsettings] at hsize hopened
    exact hP.opening hsize hcount hwidth hopened
  · obtain rfl := Option.some.inj (hrun.symm.trans hr)
    obtain ⟨hsome, -, hcount⟩ := of_checkNext_eq_ok hcheck
    have hsize := size_of_checkNext_eq_ok hcheck
    rw [hpast, hsettings]
    rw [hsettings] at hsize
    exact hP.generation _ (h r' hsome) hsize hcount

/-- **So it holds after any requests** to a policy that had no run yet. -/
theorem IsInvariant.run [SplitMix.Sampler] (hP : IsInvariant settings P) {p : Nsga3 α}
    (hsettings : p.settings = settings) (hnone : p.run = none) (requests : List (Request α)) :
    ∀ r, ((ofPolicy p).run requests).policy.run = some r
      → P ((ofPolicy p).run requests).past r := by
  have hfold (s : Session α) (hs : s.policy.settings = settings)
      (h : ∀ r, s.policy.run = some r → P s.past r) :
      ∀ r, (s.run requests).policy.run = some r → P (s.run requests).past r := by
    induction requests generalizing s with
    | nil => exact h
    | cons q requests ih =>
      exact ih (s.perform q) ((s.perform_cases q).1.trans hs) (hP.perform hs h q)
  refine hfold (ofPolicy p) hsettings fun r hr => ?_
  cases hnone.symm.trans hr

/-! ## Requests within a run -/

/-- **No first population is taken** by any of some requests. -/
def BeginsNoRun [SplitMix.Sampler] (s : Session α) : List (Request α) → Prop
  | [] => True
  | q :: requests =>
    (∀ m, q = .start m → (s.policy.start m).1 ≠ .ok ()) ∧ (s.perform q).BeginsNoRun requests

/-- **Nothing of the past is forgotten** within a run. -/
theorem past_prefix_past_run [SplitMix.Sampler] {s : Session α} {requests : List (Request α)}
    (h : s.BeginsNoRun requests) : s.past <+: (s.run requests).past := by
  induction requests generalizing s with
  | nil => exact List.prefix_refl _
  | cons q requests ih =>
    obtain ⟨hrefused, hrest⟩ := h
    refine List.IsPrefix.trans ?_ (ih hrest)
    obtain ⟨-, ⟨hpast, -⟩ | ⟨m, -, hstart, hok, -⟩ | ⟨_, _, _, -, hpast, -⟩⟩ :=
      s.perform_cases q
    · exact ⟨[], (List.append_nil _).trans hpast.symm⟩
    · exact absurd hok (hrefused m hstart)
    · exact ⟨_, hpast.symm⟩

end Session

end Nsga3

end ParetoSelection
