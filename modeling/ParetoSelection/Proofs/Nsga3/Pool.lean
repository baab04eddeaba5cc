import ParetoSelection.Proofs.Nsga3.Outcome

/-!
# The pool in every iteration

The loop that fills the population keeps three lists linked: the survivors, the candidates that
remain, and the pool of their directions, which is sorted by the niche counts. They are in order
whenever an iteration begins (`Niching.IsInOrder`), whatever has been drawn until then. The draw
is made from the front of the pool, from as many directions as share the first count; in a pool
in ascending order these are the directions with the lowest count, and all of them
(`Niching.IsInOrder.mem_take_iff`).

An iteration takes one candidate out of those that remain and lists it among the survivors. The
gap is filled with the last of the others, so a candidate may change its position, but not the
list that it is in (`Niching.IsMove`).

The state in which the iteration after the first `k` begins is the one that filling `k` places
leaves (`Niching.fill_add`). Where candidates have been lost by the ranking the pool may run
empty; the invariant holds then, too, and it is the last iteration.
-/

namespace ParetoSelection

variable {α : Type}

namespace Niching

variable {assoc : Nat → Association α}

/-! ## The front of the pool -/

/-- The elements with the lowest key are at the front of a list in ascending order. -/
theorem mem_takeWhile_key_iff {key : Nat → Nat} {xs : List Nat} {least : Nat}
    (h : xs.Pairwise fun d e => key d ≤ key e) (hleast : ∀ d ∈ xs, least ≤ key d) {d : Nat} :
    d ∈ xs.takeWhile (fun d => key d = least) ↔ d ∈ xs ∧ key d = least := by
  induction xs with
  | nil => simp
  | cons x xs ih =>
    obtain ⟨hx, hxs⟩ := List.pairwise_cons.1 h
    obtain ⟨hleastx, hleastxs⟩ := List.forall_mem_cons.1 hleast
    rw [List.takeWhile_cons]
    split
    · rename_i hshared
      rw [List.mem_cons, List.mem_cons, ih hxs hleastxs, or_and_right]
      refine or_congr_left (and_iff_left_of_imp ?_).symm
      rintro rfl
      exact of_decide_eq_true hshared
    · rename_i hlarge
      have hlt : least < key x :=
        Nat.lt_of_le_of_ne hleastx fun heq => hlarge (decide_eq_true heq.symm)
      refine iff_of_false List.not_mem_nil fun hd => ?_
      obtain rfl | hmem := List.mem_cons.1 hd.1
      · exact Nat.ne_of_gt hlt hd.2
      · exact Nat.ne_of_gt (Nat.lt_of_lt_of_le hlt (hx d hmem)) hd.2

variable (assoc) in
/-- **Survivors, remaining candidates and pool are in order**, when `candidates` are all there
are of the first two. -/
structure IsInOrder (candidates : List Nat) (s : Niching) : Prop where
  /-- No direction is in the pool twice. -/
  pool_nodup : s.pool.Nodup
  /-- The pool is the directions of the remaining candidates. -/
  mem_pool : ∀ d, d ∈ s.pool ↔ ∃ i ∈ s.remaining, (assoc i).direction = d
  /-- Every one of them has a niche count. -/
  lt_size : ∀ d ∈ s.pool, d < s.counts.size
  /-- The pool is in ascending order of the niche counts. -/
  ascending : s.pool.Pairwise fun d e => count s.counts d ≤ count s.counts e
  /-- Every candidate is listed once, as a survivor or as one that remains. -/
  perm : (s.survivors ++ s.remaining).Perm candidates
  /-- No candidate is listed twice. -/
  nodup : (s.survivors ++ s.remaining).Nodup

/-- **The draw is made from the directions with the lowest niche count** of the pool, and from
all of these. -/
theorem IsInOrder.mem_take_iff {candidates : List Nat} {s : Niching}
    (h : s.IsInOrder assoc candidates) {d : Nat} :
    d ∈ s.pool.take s.minimalCount
      ↔ d ∈ s.pool ∧ ∀ e ∈ s.pool, count s.counts d ≤ count s.counts e := by
  have hfront : s.pool.take s.minimalCount
      = s.pool.takeWhile fun d => count s.counts d = count s.counts (s.pool.headD 0) :=
    (List.prefix_iff_eq_take.1 (List.takeWhile_prefix _)).symm
  have hhead (e : Nat) (he : e ∈ s.pool) :
      count s.counts (s.pool.headD 0) ≤ count s.counts e := count_headD_le h.ascending he
  rw [hfront, mem_takeWhile_key_iff h.ascending hhead]
  refine and_congr_right fun hd => ⟨fun heq e he => heq ▸ hhead e he, fun hle => ?_⟩
  have hfirst : s.pool.headD 0 ∈ s.pool := by
    obtain ⟨c, pool, hpool⟩ := List.exists_cons_of_ne_nil (List.ne_nil_of_mem hd)
    rw [hpool]
    exact List.mem_cons_self
  exact Nat.le_antisymm (hle _ hfirst) (hhead d hd)

/-- An even state is in order. -/
theorem IsEven.isInOrder {taken candidates : List Nat} {s : Niching} (h : s.IsEven assoc taken)
    (hperm : (s.survivors ++ s.remaining).Perm candidates) (hnodup : candidates.Nodup) :
    s.IsInOrder assoc candidates :=
  ⟨h.consistent.pool_nodup, h.consistent.mem_pool, h.lt_size, h.ascending, hperm,
    hperm.nodup_iff.2 hnodup⟩

/-! ## One iteration -/

/-- **One candidate has moved**, from those that remain to the survivors. -/
structure IsMove (candidates : List Nat) (i : Nat) (s s' : Niching) : Prop where
  /-- It was among those that remain. -/
  mem_remaining : i ∈ s.remaining
  /-- It is not any more. -/
  not_mem_remaining : i ∉ s'.remaining
  /-- It is the last survivor, and the other ones are those of before. -/
  survivors_eq : s'.survivors = s.survivors ++ [i]
  /-- Every other candidate is in the list that it was in, and not in the other one. -/
  stays : ∀ j ∈ candidates, j ≠ i →
    j ∈ s.survivors ∧ j ∉ s.remaining ∧ j ∈ s'.survivors ∧ j ∉ s'.remaining
      ∨ j ∉ s.survivors ∧ j ∈ s.remaining ∧ j ∉ s'.survivors ∧ j ∈ s'.remaining

/-- A survivor more and one fewer that remains is a move. -/
theorem IsInOrder.isMove {candidates : List Nat} {s s' : Niching}
    (h : s.IsInOrder assoc candidates) {i : Nat} (hsurvivors : s'.survivors = s.survivors ++ [i])
    (hperm : (i :: s'.remaining).Perm s.remaining) : IsMove candidates i s s' := by
  obtain ⟨-, hremaining, hdisjoint⟩ := List.nodup_append'.1 h.nodup
  have hnot := (List.nodup_cons.1 (hperm.nodup_iff.2 hremaining)).1
  refine ⟨hperm.subset List.mem_cons_self, hnot, hsurvivors, fun j hj hne => ?_⟩
  have hsurvives : j ∈ s'.survivors ↔ j ∈ s.survivors := by
    rw [hsurvivors, List.mem_append, List.mem_singleton]
    exact or_iff_left hne
  have hremains : j ∈ s'.remaining ↔ j ∈ s.remaining := by
    rw [← hperm.mem_iff, List.mem_cons]
    exact (or_iff_right hne).symm
  rw [hsurvives, hremains]
  obtain hmem | hmem := List.mem_append.1 (h.perm.mem_iff.2 hj)
  · have hout : j ∉ s.remaining := fun hin => List.disjoint_left.1 hdisjoint hmem hin
    exact .inl ⟨hmem, hout, hmem, hout⟩
  · have hout : j ∉ s.survivors := fun hin => List.disjoint_left.1 hdisjoint hin hmem
    exact .inr ⟨hout, hmem, hout, hmem⟩

variable [Scalar α] {σ : Type} {draw : Nat → σ → Nat × σ}

/-- **An iteration moves one candidate** as long as there is a direction in the pool. -/
theorem exists_fill_one (hdraw : ∀ n source, 0 < n → (draw n source).1 < n)
    {taken : List Nat} {s : Niching} (h : s.IsEven assoc taken) (hpool : s.pool ≠ [])
    (source : σ) :
    ∃ i s', fill assoc draw 1 s source = (.ok (), s', (draw s.minimalCount source).2)
      ∧ s'.survivors = s.survivors ++ [i] ∧ (i :: s'.remaining).Perm s.remaining := by
  obtain ⟨hpos, hle⟩ := minimalCount_bounds hpool
  have hin := Nat.lt_of_lt_of_le (hdraw _ source hpos) hle
  obtain ⟨s', i, hmove, -, hsurvivors, hperm⟩ := moveIn_eq_some h.consistent hin
  refine ⟨i, s', ?_, hsurvivors, hperm⟩
  rw [fill, if_neg (mt List.isEmpty_iff.1 hpool)]
  dsimp only
  rw [hmove]
  rfl

/-! ## A number of iterations -/

/-- **Iterations are made one after the other**: filling some places and then more of them is
filling them all. -/
theorem fill_add {k l : Nat} {s s' : Niching} {source rest : σ}
    (h : fill assoc draw k s source = (.ok (), s', rest)) :
    fill assoc draw (k + l) s source = fill assoc draw l s' rest := by
  induction k generalizing s source with
  | zero =>
    obtain ⟨-, rfl, rfl⟩ : _ ∧ s = s' ∧ source = rest := (Prod.mk.inj h).imp_right Prod.mk.inj
    rw [Nat.zero_add]
  | succ k ih =>
    rw [Nat.succ_add]
    rw [fill] at h ⊢
    split at h
    · cases congrArg (·.1) h
    · rename_i hpool
      rw [if_neg hpool]
      dsimp only at h ⊢
      split at h
      · cases congrArg (·.1) h
      · exact ih h

/-- It stays even in a number of iterations. -/
theorem exists_isEven_of_fill (hdraw : ∀ n source, 0 < n → (draw n source).1 < n) {k : Nat}
    {s s' : Niching} {source rest : σ} (h : s.IsEven assoc [])
    (hfill : fill assoc draw k s source = (.ok (), s', rest)) :
    ∃ taken, s'.IsEven assoc taken
      ∧ (s'.survivors ++ s'.remaining).Perm (s.survivors ++ s.remaining) := by
  obtain ⟨taken, -, hsurvivors, hperm, heven⟩ := fill_invariant hdraw
    (fun hP hplace hmove hsurvivors => hP.of_moveIn hplace hmove hsurvivors)
    (P := fun taken s => s.IsEven assoc taken) [] h hfill
  refine ⟨taken, heven, ?_⟩
  rw [hsurvivors, List.append_assoc]
  exact hperm.append_left _

end Niching

namespace Nsga3

variable [Scalar α] {σ : Type}

/-! ## The loop of a generation -/

/-- The candidates that the loop is about: the members of the fronts that fit, and those of the
one that does not. -/
def contenders (settings : Settings) (combined : FitnessMatrix α) : List Nat :=
  (combined.rankWith settings.strategy).complete settings.populationSize
    ++ (combined.rankWith settings.strategy).overflowing settings.populationSize

/-- **The state in which the loop begins**: the fronts that fit are survivors, the members of
the one that does not remain, and the niche counts are those of the survivors. -/
def Run.beforeFilling (settings : Settings) (combined : FitnessMatrix α) (r : Run α) : Niching :=
  let ranked := combined.rankWith settings.strategy
  let complete := ranked.complete settings.populationSize
  let overflowing := ranked.overflowing settings.populationSize
  let table := Association.table (r.estimates.update combined) r.directions combined ranked.ranks
    (complete ++ overflowing)
  let counts := Association.nicheCounts table r.directions.size complete
  ⟨complete, overflowing,
    Niching.initialPool (r.candidate settings combined) counts overflowing, counts⟩

/-- **The state in which an iteration of the loop begins**, the one after the first `k`, and the
source of draws that is left. -/
def Run.iterate (draw : Nat → σ → Nat × σ) (settings : Settings) (combined : FitnessMatrix α)
    (r : Run α) (k : Nat) (source : σ) : Except ViolationCause Unit × Niching × σ :=
  Niching.fill (r.candidate settings combined) draw k (r.beforeFilling settings combined) source

/-- How many places the loop has to fill. -/
def Run.freePlaces (settings : Settings) (combined : FitnessMatrix α) : Nat :=
  settings.populationSize
    - ((combined.rankWith settings.strategy).complete settings.populationSize).length

/-- **A generation is its loop**, with as many iterations as there are places. -/
theorem Run.advance_fst {r : Run α} (hr : r.directions.IsSearchable) (draw : Nat → σ → Nat × σ)
    (settings : Settings) (combined : FitnessMatrix α) (source : σ) :
    (r.advance draw settings combined source).1
      = ((r.iterate draw settings combined (freePlaces settings combined) source).1.map fun _ =>
          (r.iterate draw settings combined (freePlaces settings combined) source).2.1.survivors
        ).mapError .violation := by
  have hlt := r.direction_candidate_lt hr settings combined
  unfold Run.iterate Run.advance Run.beforeFilling Run.freePlaces
  unfold Run.candidate at hlt ⊢
  dsimp only at hlt ⊢
  rw [Association.requireTotal_eq_ok hlt]
  dsimp only
  split
  · rename_i hfill
    rw [hfill]
    rfl
  · rename_i hfill
    rw [hfill]
    rfl

/-- The loop begins in an even state. -/
theorem Run.isEven_beforeFilling {r : Run α} (hr : r.directions.IsSearchable)
    (settings : Settings) (combined : FitnessMatrix α) :
    (r.beforeFilling settings combined).IsEven (r.candidate settings combined) [] := by
  have hlt := r.direction_candidate_lt hr settings combined
  refine Niching.isEven_initialPool (fun i => ?_) (fun d hd => ?_) _
  · rw [Association.size_nicheCounts]
    exact hlt i
  · rw [Association.size_nicheCounts] at hd
    exact count_nicheCounts _ hd

/-- **Everything is in order whenever an iteration begins.** A policy is in a state that requests
lead to, and a generation has passed its checks; its survivors are those that its loop leaves.
Then, from any source of draws in range and after any number of iterations, the pool has no
duplicates, is exactly the directions of the candidates that remain, and is in ascending order
of the niche counts; the draw is made from exactly those directions of the pool that have the
lowest count. If there is a direction in the pool the iteration moves one candidate from those
that remain to the survivors, and every other candidate is still in the one of the two lists
that it was in. -/
theorem isInOrder_iterate [SplitMix.Sampler] {p : Nsga3 α} {dim : Nat}
    (h : (Policy.nsga3 p).Reachable (some dim))
    {parents children combined : FitnessMatrix α} {r : Run α}
    (hchecked : checkNext parents children p = .ok (r, combined)) :
    ((p.nextGeneration parents children).1
        = ((r.iterate SplitMix.below p.settings combined (Run.freePlaces p.settings combined)
              p.generator).1.map fun _ =>
            (r.iterate SplitMix.below p.settings combined (Run.freePlaces p.settings combined)
              p.generator).2.1.survivors).mapError .violation)
      ∧ ∀ {σ : Type} (draw : Nat → σ → Nat × σ), (∀ n source, 0 < n → (draw n source).1 < n) →
        ∀ (source : σ) (k : Nat) (s : Niching) (rest : σ),
          r.iterate draw p.settings combined k source = (.ok (), s, rest) →
          (∀ l, r.iterate draw p.settings combined (k + l) source
              = Niching.fill (r.candidate p.settings combined) draw l s rest)
            ∧ s.IsInOrder (r.candidate p.settings combined) (contenders p.settings combined)
            ∧ (∀ d, d ∈ s.pool.take s.minimalCount
                ↔ d ∈ s.pool ∧ ∀ e ∈ s.pool, Niching.count s.counts d ≤ Niching.count s.counts e)
            ∧ (s.pool ≠ [] → ∃ i s',
                r.iterate draw p.settings combined (k + 1) source
                    = (.ok (), s', (draw s.minimalCount rest).2)
                  ∧ Niching.IsMove (contenders p.settings combined) i s s') := by
  obtain ⟨hrun, -, -⟩ := of_checkNext_eq_ok hchecked
  obtain ⟨-, hr⟩ := two_le_dim_of_reachable h hrun
  refine ⟨?_, fun draw hdraw source k s rest hk => ?_⟩
  · unfold nextGeneration
    rw [hchecked]
    exact Run.advance_fst hr _ _ _ _
  · have hnodup : (contenders p.settings combined).Nodup :=
      nodup_ordered_rankWith.sublist
        (RankedFronts.complete_append_overflowing_prefix _ p.settings.populationSize).sublist
    obtain ⟨taken, heven, hperm⟩ :=
      Niching.exists_isEven_of_fill hdraw (r.isEven_beforeFilling hr p.settings combined) hk
    have horder := heven.isInOrder hperm hnodup
    refine ⟨fun l => Niching.fill_add hk, horder, fun d => horder.mem_take_iff, fun hpool => ?_⟩
    obtain ⟨i, s', hone, hsurvivors, hmoved⟩ := Niching.exists_fill_one hdraw heven hpool rest
    exact ⟨i, s', (Niching.fill_add hk).trans hone, horder.isMove hsurvivors hmoved⟩

/-- The state after one iteration that draws the first direction: it has gone behind the other
one in the pool, and the last candidate has filled the gap. -/
def afterFirst : Niching :=
  ⟨[0], [3, 1, 2], [2, 0], #[1, 0, 0]⟩

/-- It is in order, and a second iteration moves another candidate. -/
theorem trioPolicy_isInOrder :
    ∃ r, trioPolicy.run = some r
      ∧ r.iterate (fun _ source => (0, source)) trioSettings (trio ++ fourth) 1 ()
        = (.ok (), afterFirst, ())
      ∧ afterFirst.IsInOrder (r.candidate trioSettings (trio ++ fourth)) [0, 1, 2, 3]
      ∧ ∃ i s', r.iterate (fun _ source => (0, source)) trioSettings (trio ++ fourth) 2 ()
          = (.ok (), s', ()) ∧ Niching.IsMove [0, 1, 2, 3] i afterFirst s' := by
  have hsettings : trioPolicy.settings = trioSettings := by decide +kernel
  have hcontenders : contenders trioSettings (trio ++ fourth) = [0, 1, 2, 3] := by decide +kernel
  have hfirst : trioPolicy.run.map (fun r : Run Binary64 =>
      r.iterate (fun _ source => (0, source)) trioSettings (trio ++ fourth) 1 ())
        = some (.ok (), afterFirst, ()) := by decide +kernel
  have hdim : trioPolicy.run.map Run.dim = some 2 := by decide +kernel
  obtain ⟨r, hrun⟩ := exists_run_of_reachable reachable_trioPolicy
  rw [hrun] at hfirst hdim
  have hchecked : checkNext trio fourth trioPolicy = .ok (r, trio ++ fourth) := by
    refine checkNext_eq_ok hrun (by decide +kernel) ?_
    rw [Option.some.inj hdim]
    decide +kernel
  obtain ⟨-, hiterations⟩ := isInOrder_iterate reachable_trioPolicy hchecked
  rw [hsettings, hcontenders] at hiterations
  obtain ⟨-, horder, -, hmoves⟩ := hiterations (fun _ source => (0, source)) (fun _ _ hn => hn) ()
    1 afterFirst () (Option.some.inj hfirst)
  exact ⟨r, hrun, Option.some.inj hfirst, horder, hmoves (List.cons_ne_nil _ _)⟩

end Nsga3

end ParetoSelection
