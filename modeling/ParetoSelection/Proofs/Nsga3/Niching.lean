import Mathlib.Data.List.Induction
import ParetoSelection.Nsga3.Niching
import ParetoSelection.Proofs.Fronts.Partition

/-!
# Niching never gets stuck

Filling the population stops early in two cases: no direction is left in the
pool, or the direction that is drawn has no remaining candidate. Neither can
happen, because the pool is at every moment *exactly* the directions of the
remaining candidates, each of them once (`Niching.IsConsistent`). A direction
of the pool then has a candidate, and while a candidate remains there is a
direction in the pool.

What keeps the pool exact is the test whether a candidate was the last of its
direction: if it was, the direction leaves the pool, otherwise the pool is only
rearranged. Where in the pool the draw falls, and how many directions it is
drawn from, does not matter as long as the draw is in range; so `fill_eq_ok`
holds for any source of draws.
-/

namespace ParetoSelection

/-! ## Filling a gap and changing places -/

/-- **Taking an element out and filling the gap loses nothing else.** -/
theorem fillGap_perm {xs : List Nat} {i : Nat} (h : i < xs.length) :
    (xs.getD i 0 :: fillGap xs i).Perm xs := by
  cases xs using List.reverseRecOn with
  | nil => exact absurd h (Nat.not_lt_zero i)
  | append_singleton ys l =>
    rw [fillGap, List.getLast?_append, List.getLast?_singleton, Option.some_or, Option.getD_some]
    rw [List.length_append, List.length_singleton] at h
    rcases Nat.lt_or_eq_of_le (Nat.le_of_lt_succ h) with hlt | rfl
    · rw [List.set_append_left _ _ hlt, List.dropLast_concat, List.getD_append _ _ _ _ hlt,
        List.getD_eq_getElem _ _ hlt]
      calc List.Perm (ys[i] :: ys.set i l) (ys[i] :: l :: ys.eraseIdx i) :=
            (List.set_perm_cons_eraseIdx hlt l).cons _
        List.Perm _ (l :: ys[i] :: ys.eraseIdx i) := List.Perm.swap _ _ _
        List.Perm _ (l :: ys) := (List.getElem_cons_eraseIdx_perm hlt).cons l
        List.Perm _ (ys ++ [l]) := (List.perm_append_singleton l ys).symm
    · rw [List.getD_append_right _ _ _ _ (Nat.le_refl _), Nat.sub_self,
        List.set_append_right _ _ (Nat.le_refl _), Nat.sub_self]
      show (l :: (ys ++ [l]).dropLast).Perm _
      rw [List.dropLast_concat]
      exact (List.perm_append_singleton l ys).symm

/-- Changing places rearranges. -/
theorem exchange_perm {xs : List Nat} {i j : Nat} (hi : i < xs.length) (hj : j < xs.length) :
    (exchange xs i j).Perm xs := by
  rw [exchange, List.getD_eq_getElem _ _ hi, List.getD_eq_getElem _ _ hj]
  exact List.set_set_perm hi hj

namespace Niching

variable {α : Type} [Scalar α] {assoc : Nat → Association α}

/-! ## The places of a direction -/

omit [Scalar α] in
/-- A place of a direction holds a remaining candidate of it. -/
theorem mem_placesOf {remaining : List Nat} {d k : Nat} :
    k ∈ placesOf assoc remaining d
      ↔ k < remaining.length ∧ (assoc (remaining.getD k 0)).direction = d := by
  unfold placesOf
  rw [List.mem_filter, List.mem_range, decide_eq_true_iff]

omit [Scalar α] in
/-- A direction has as many places as remaining candidates. -/
theorem length_placesOf (remaining : List Nat) (d : Nat) :
    (placesOf assoc remaining d).length
      = remaining.countP fun i => (assoc i).direction = d := by
  conv_rhs => rw [← map_getD_range remaining 0, List.countP_map]
  exact List.countP_eq_length_filter.symm

/-- The closest candidate is at one of the places. -/
theorem closestPlace_mem (remaining : List Nat) (first : Nat) (rest : List Nat) :
    closestPlace assoc remaining first rest ∈ first :: rest := by
  unfold closestPlace
  induction rest generalizing first with
  | nil => exact List.mem_singleton_self first
  | cons k rest ih =>
    rw [List.foldl_cons]
    rcases List.mem_cons.1 (ih _) with heq | hmem
    · rw [heq]
      split
      · exact List.mem_cons_of_mem _ List.mem_cons_self
      · exact List.mem_cons_self
    · exact List.mem_cons_of_mem _ (List.mem_cons_of_mem _ hmem)

/-! ## The pool is exact -/

variable (assoc) in
/-- **The pool is the directions of the remaining candidates**, each once. -/
structure IsConsistent (s : Niching) : Prop where
  /-- No direction is in the pool twice. -/
  pool_nodup : s.pool.Nodup
  /-- A direction is in the pool exactly if a candidate of it remains. -/
  mem_pool : ∀ d, d ∈ s.pool ↔ ∃ i ∈ s.remaining, (assoc i).direction = d

omit [Scalar α] in
/-- **The pool to start with is exact**, if every direction is counted. -/
theorem isConsistent_initialPool {counts : Array Nat}
    (h : ∀ i, (assoc i).direction < counts.size) (survivors remaining : List Nat) :
    IsConsistent assoc ⟨survivors, remaining, initialPool assoc counts remaining, counts⟩ := by
  have hperm : (initialPool assoc counts remaining).Perm
      ((List.range counts.size).filter fun d =>
        remaining.any fun i => (assoc i).direction = d) := stableSort_perm _ _
  refine ⟨hperm.nodup_iff.2 (List.nodup_range.filter _), fun d => ?_⟩
  show d ∈ initialPool assoc counts remaining ↔ _
  rw [hperm.mem_iff, List.mem_filter, List.mem_range, List.any_eq_true]
  constructor
  · rintro ⟨-, i, hi, hd⟩
    exact ⟨i, hi, of_decide_eq_true hd⟩
  · rintro ⟨i, hi, rfl⟩
    exact ⟨h i, i, hi, decide_eq_true rfl⟩

/-- The pool is only rearranged when a count is raised. -/
theorem reorderPool_perm (counts : Array Nat) {pool : List Nat} {place : Nat}
    (h : place < pool.length) : (reorderPool counts pool place).Perm pool := by
  unfold reorderPool
  refine exchange_perm h ?_
  have hlen := (List.takeWhile_sublist (l := pool.drop (place + 1))
    fun d => count counts d < count counts (pool.getD place 0)).length_le
  rw [List.length_drop] at hlen
  omega

omit [Scalar α] in
/-- **What remains when a candidate of a direction has moved in**: one candidate
fewer of its direction, and of every other direction as many as before. -/
theorem fillGap_of_mem_placesOf {remaining : List Nat} {d k : Nat}
    (hk : k ∈ placesOf assoc remaining d) :
    (remaining.getD k 0 :: fillGap remaining k).Perm remaining
      ∧ ((fillGap remaining k).countP fun i => (assoc i).direction = d) + 1
          = (placesOf assoc remaining d).length
      ∧ ∀ e, e ≠ d → ((∃ i ∈ fillGap remaining k, (assoc i).direction = e)
          ↔ ∃ i ∈ remaining, (assoc i).direction = e) := by
  obtain ⟨hlt, hkd⟩ := mem_placesOf.1 hk
  have hperm := fillGap_perm hlt
  refine ⟨hperm, ?_, fun e he => ⟨?_, ?_⟩⟩
  · rw [length_placesOf, ← hperm.countP_eq, List.countP_cons, if_pos (decide_eq_true hkd)]
  · rintro ⟨i, hi, hie⟩
    exact ⟨i, hperm.mem_iff.1 (List.mem_cons_of_mem _ hi), hie⟩
  · rintro ⟨i, hi, hie⟩
    rcases List.mem_cons.1 (hperm.mem_iff.2 hi) with rfl | hi
    · exact absurd (hie.symm.trans hkd) he
    · exact ⟨i, hi, hie⟩

/-- Without the direction at a place, the pool has all others. -/
theorem mem_eraseIdx_pool {pool : List Nat} (hnodup : pool.Nodup) {place : Nat}
    (hplace : place < pool.length) (e : Nat) :
    e ∈ pool.eraseIdx place ↔ e ∈ pool ∧ e ≠ pool.getD place 0 := by
  have hperm := List.getElem_cons_eraseIdx_perm hplace
  rw [List.getD_eq_getElem _ _ hplace]
  rw [← hperm.nodup_iff, List.nodup_cons] at hnodup
  rw [← hperm.mem_iff, List.mem_cons]
  constructor
  · intro he
    refine ⟨Or.inr he, ?_⟩
    rintro rfl
    exact hnodup.1 he
  · rintro ⟨he, hne⟩
    exact he.resolve_left hne

omit [Scalar α] in
/-- A direction of the pool has a place. -/
theorem IsConsistent.placesOf_ne_nil {s : Niching} (h : s.IsConsistent assoc) {d : Nat}
    (hd : d ∈ s.pool) : placesOf assoc s.remaining d ≠ [] := by
  obtain ⟨i, hi, hid⟩ := (h.mem_pool d).1 hd
  intro hnone
  have hcount : (placesOf assoc s.remaining d).length = _ := length_placesOf s.remaining d
  rw [hnone, List.length_nil, eq_comm, List.countP_eq_zero] at hcount
  exact hcount i hi (decide_eq_true hid)

omit [Scalar α] in
/-- **The pool stays exact** when the last candidate of a direction moves in and
the direction leaves the pool. -/
theorem IsConsistent.leave {s : Niching} (h : s.IsConsistent assoc) {place k : Nat}
    (hplace : place < s.pool.length) (hk : k ∈ placesOf assoc s.remaining (s.pool.getD place 0))
    (hlast : (placesOf assoc s.remaining (s.pool.getD place 0)).length = 1)
    (survivors : List Nat) (counts : Array Nat) :
    IsConsistent assoc ⟨survivors, fillGap s.remaining k, s.pool.eraseIdx place, counts⟩ := by
  obtain ⟨-, hleft, hother⟩ := fillGap_of_mem_placesOf hk
  rw [hlast, Nat.add_eq_right, List.countP_eq_zero] at hleft
  refine ⟨h.pool_nodup.sublist (List.eraseIdx_sublist _ _), fun e => ?_⟩
  show e ∈ s.pool.eraseIdx place ↔ ∃ i ∈ fillGap s.remaining k, (assoc i).direction = e
  rw [mem_eraseIdx_pool h.pool_nodup hplace, h.mem_pool]
  by_cases he : e = s.pool.getD place 0
  · refine iff_of_false (fun hmem => hmem.2 he) ?_
    rintro ⟨i, hi, hie⟩
    exact hleft i hi (decide_eq_true (hie.trans he))
  · rw [hother e he]
    exact and_iff_left he

omit [Scalar α] in
/-- **The pool stays exact** when a candidate moves in and others of its
direction remain, however the pool is rearranged. -/
theorem IsConsistent.stay {s : Niching} (h : s.IsConsistent assoc) {d k : Nat} (hd : d ∈ s.pool)
    (hk : k ∈ placesOf assoc s.remaining d) (hmore : 1 < (placesOf assoc s.remaining d).length)
    {pool : List Nat} (hpool : pool.Perm s.pool) (survivors : List Nat) (counts : Array Nat) :
    IsConsistent assoc ⟨survivors, fillGap s.remaining k, pool, counts⟩ := by
  obtain ⟨-, hleft, hother⟩ := fillGap_of_mem_placesOf hk
  refine ⟨hpool.nodup_iff.2 h.pool_nodup, fun e => ?_⟩
  show e ∈ pool ↔ ∃ i ∈ fillGap s.remaining k, (assoc i).direction = e
  rw [hpool.mem_iff]
  by_cases he : e = d
  · have hpos : 0 < (fillGap s.remaining k).countP fun i => (assoc i).direction = d := by omega
    obtain ⟨i, hi, hid⟩ := List.countP_pos_iff.1 hpos
    exact iff_of_true (he ▸ hd) ⟨i, hi, (of_decide_eq_true hid).trans he.symm⟩
  · rw [h.mem_pool]
    exact (hother e he).symm

/-! ## One candidate moves in -/

/-- **What a move does**: the closest candidate of the direction moves in. If it
was the last one the direction leaves the pool, otherwise its count is raised and
the pool is put in order. -/
theorem moveIn_cases {s s' : Niching} {place : Nat} (h : s.moveIn assoc place = some s') :
    ∃ first rest, placesOf assoc s.remaining (s.pool.getD place 0) = first :: rest
      ∧ s'.survivors
          = s.survivors ++ [s.remaining.getD (closestPlace assoc s.remaining first rest) 0]
      ∧ s'.remaining = fillGap s.remaining (closestPlace assoc s.remaining first rest)
      ∧ (rest = [] ∧ s'.pool = s.pool.eraseIdx place ∧ s'.counts = s.counts
        ∨ rest ≠ [] ∧ s'.counts = s.counts.modify (s.pool.getD place 0) (· + 1)
          ∧ s'.pool = reorderPool s'.counts s.pool place) := by
  unfold moveIn at h
  dsimp only at h
  cases hplaces : placesOf assoc s.remaining (s.pool.getD place 0) with
  | nil =>
    rw [hplaces] at h
    cases h
  | cons first rest =>
    rw [hplaces] at h
    dsimp only at h
    refine ⟨first, rest, rfl, ?_⟩
    split at h
    · rename_i hlast
      obtain rfl := Option.some.inj h
      exact ⟨rfl, rfl, .inl ⟨List.isEmpty_iff.1 hlast, rfl, rfl⟩⟩
    · rename_i hmore
      obtain rfl := Option.some.inj h
      exact ⟨rfl, rfl, .inr ⟨mt List.isEmpty_iff.2 hmore, rfl, rfl⟩⟩

/-- A direction with a remaining candidate can be moved in from. -/
theorem exists_moveIn {s : Niching} {place : Nat}
    (h : placesOf assoc s.remaining (s.pool.getD place 0) ≠ []) :
    ∃ s', s.moveIn assoc place = some s' := by
  obtain ⟨first, rest, hplaces⟩ := List.exists_cons_of_ne_nil h
  unfold moveIn
  dsimp only
  rw [hplaces]
  dsimp only
  split
  · exact ⟨_, rfl⟩
  · exact ⟨_, rfl⟩

/-- A move takes one of the remaining candidates, one of the direction at the
place, and leaves the others. -/
theorem exists_of_moveIn {s s' : Niching} {place : Nat} (h : s.moveIn assoc place = some s') :
    ∃ i, s'.survivors = s.survivors ++ [i] ∧ (i :: s'.remaining).Perm s.remaining
      ∧ (assoc i).direction = s.pool.getD place 0 := by
  obtain ⟨first, rest, hplaces, hsurvivors, hremaining, -⟩ := moveIn_cases h
  have hk : closestPlace assoc s.remaining first rest
      ∈ placesOf assoc s.remaining (s.pool.getD place 0) := by
    rw [hplaces]
    exact closestPlace_mem s.remaining first rest
  obtain ⟨hlt, hd⟩ := mem_placesOf.1 hk
  exact ⟨_, hsurvivors, hremaining ▸ fillGap_perm hlt, hd⟩

/-- So the candidate that has joined the survivors is of that direction. -/
theorem perm_of_moveIn {s s' : Niching} {place i : Nat} (hmove : s.moveIn assoc place = some s')
    (hsurvivors : s'.survivors = s.survivors ++ [i]) :
    (i :: s'.remaining).Perm s.remaining ∧ (assoc i).direction = s.pool.getD place 0 := by
  obtain ⟨j, hj, hperm, hdirection⟩ := exists_of_moveIn hmove
  obtain rfl : i = j :=
    List.singleton_injective (List.append_cancel_left (hsurvivors.symm.trans hj))
  exact ⟨hperm, hdirection⟩

/-- **The pool stays exact** in any move. -/
theorem IsConsistent.of_moveIn {s s' : Niching} (h : s.IsConsistent assoc) {place : Nat}
    (hplace : place < s.pool.length) (hmove : s.moveIn assoc place = some s') :
    s'.IsConsistent assoc := by
  have hd := getD_mem hplace
  obtain ⟨first, rest, hplaces, -, hremaining, hcases⟩ := moveIn_cases hmove
  have hk : closestPlace assoc s.remaining first rest
      ∈ placesOf assoc s.remaining (s.pool.getD place 0) := by
    rw [hplaces]
    exact closestPlace_mem s.remaining first rest
  have hcount : (placesOf assoc s.remaining (s.pool.getD place 0)).length = rest.length + 1 := by
    rw [hplaces, List.length_cons]
  obtain ⟨survivors, remaining, pool, counts⟩ := s'
  obtain rfl : remaining = _ := hremaining
  obtain ⟨hlast, hpool, -⟩ | ⟨hmore, -, hpool⟩ := hcases
  · rw [hlast, List.length_nil] at hcount
    obtain rfl : pool = _ := hpool
    exact h.leave hplace hk hcount _ _
  · have hpos := List.length_pos_iff.2 hmore
    obtain rfl : pool = reorderPool counts s.pool place := hpool
    exact h.stay hd hk (by omega) (reorderPool_perm _ hplace) _ _

/-- **One candidate moves in**, and the pool stays exact. -/
theorem moveIn_eq_some {s : Niching} (h : s.IsConsistent assoc) {place : Nat}
    (hplace : place < s.pool.length) :
    ∃ s' i, s.moveIn assoc place = some s' ∧ s'.IsConsistent assoc
      ∧ s'.survivors = s.survivors ++ [i] ∧ (i :: s'.remaining).Perm s.remaining := by
  obtain ⟨s', hmove⟩ := exists_moveIn (h.placesOf_ne_nil (getD_mem hplace))
  obtain ⟨i, hsurvivors, hperm, -⟩ := exists_of_moveIn hmove
  exact ⟨s', i, hmove, h.of_moveIn hplace hmove, hsurvivors, hperm⟩

/-! ## Filling the places -/

/-- There is a direction to draw from, and the draw is made among directions of
the pool. -/
theorem minimalCount_bounds {s : Niching} (h : s.pool ≠ []) :
    0 < s.minimalCount ∧ s.minimalCount ≤ s.pool.length := by
  unfold minimalCount
  refine ⟨?_, (List.takeWhile_sublist _).length_le⟩
  obtain ⟨d, pool, hpool⟩ := List.exists_cons_of_ne_nil h
  rw [hpool, List.headD_cons, List.takeWhile_cons, if_pos (decide_eq_true rfl)]
  exact Nat.succ_pos _

/-- **Filling never gets stuck**: from any source of draws that are in range,
as many candidates move in as there are places, each of them one that was
remaining. -/
theorem fill_eq_ok {σ : Type} {draw : Nat → σ → Nat × σ}
    (hdraw : ∀ n source, 0 < n → (draw n source).1 < n) {places : Nat} {s : Niching}
    (h : s.IsConsistent assoc) (hplaces : places ≤ s.remaining.length) (source : σ) :
    ∃ s' source' taken, fill assoc draw places s source = (.ok (), s', source')
      ∧ s'.survivors = s.survivors ++ taken ∧ taken.length = places
      ∧ taken.Subperm s.remaining := by
  induction places generalizing s source with
  | zero =>
    exact ⟨s, source, [], rfl, (List.append_nil _).symm, rfl, List.nil_subperm⟩
  | succ places ih =>
    have hpool : s.pool ≠ [] := by
      obtain ⟨i, hi⟩ := List.exists_mem_of_length_pos (Nat.lt_of_lt_of_le (Nat.succ_pos _) hplaces)
      exact List.ne_nil_of_mem ((h.mem_pool _).2 ⟨i, hi, rfl⟩)
    obtain ⟨hpos, hle⟩ := minimalCount_bounds hpool
    have hin : (draw s.minimalCount source).1 < s.pool.length :=
      Nat.lt_of_lt_of_le (hdraw _ source hpos) hle
    obtain ⟨s', i, hmove, hconsistent, hsurvivors, hperm⟩ := moveIn_eq_some h hin
    have hleft : places ≤ s'.remaining.length := by
      have hlen := hperm.length_eq
      rw [List.length_cons] at hlen
      omega
    obtain ⟨s'', source'', taken, hfill, hsurvivors', hlen, hsub⟩ :=
      ih hconsistent hleft (draw s.minimalCount source).2
    refine ⟨s'', source'', i :: taken, ?_, ?_, by rw [List.length_cons, hlen], ?_⟩
    · rw [fill, if_neg (mt List.isEmpty_iff.1 hpool)]
      dsimp only
      rw [hmove]
      exact hfill
    · rw [hsurvivors', hsurvivors, List.append_assoc, List.singleton_append]
    · exact ((List.subperm_cons i).2 hsub).trans hperm.subperm

/-- **What every move keeps, a whole run keeps**: a property of the candidates
that have been taken and of the state that they leave. Whatever is asked of the
property, a run takes as many candidates as there are places, one by one from
those that were remaining. -/
theorem fill_invariant {σ : Type} {draw : Nat → σ → Nat × σ}
    (hdraw : ∀ n source, 0 < n → (draw n source).1 < n) {P : List Nat → Niching → Prop}
    (step : ∀ {taken s s' place i}, P taken s → place < s.minimalCount →
      s.moveIn assoc place = some s' → s'.survivors = s.survivors ++ [i] → P (taken ++ [i]) s')
    {places : Nat} {s s' : Niching} {source source' : σ} (taken : List Nat) (h : P taken s)
    (hfill : fill assoc draw places s source = (.ok (), s', source')) :
    ∃ more, more.length = places ∧ s'.survivors = s.survivors ++ more
      ∧ (more ++ s'.remaining).Perm s.remaining ∧ P (taken ++ more) s' := by
  induction places generalizing s source taken with
  | zero =>
    obtain rfl : s = s' := congrArg (·.2.1) hfill
    exact ⟨[], rfl, (List.append_nil _).symm, List.Perm.refl _, by rwa [List.append_nil]⟩
  | succ places ih =>
    rw [fill] at hfill
    split at hfill
    · cases congrArg (·.1) hfill
    · rename_i hpool
      have hin : (draw s.minimalCount source).1 < s.minimalCount :=
        hdraw _ source (minimalCount_bounds (mt List.isEmpty_iff.2 hpool)).1
      dsimp only at hfill
      split at hfill
      · cases congrArg (·.1) hfill
      · rename_i next hmove
        obtain ⟨i, hsurvivors, hperm, -⟩ := exists_of_moveIn hmove
        obtain ⟨more, hlen, hmore, hleft, hP⟩ := ih _ (step h hin hmove hsurvivors) hfill
        refine ⟨i :: more, by rw [List.length_cons, hlen], ?_, ?_, ?_⟩
        · rw [hmore, hsurvivors, List.append_assoc, List.singleton_append]
        · exact (hleft.cons i).trans hperm
        · rwa [List.append_assoc, List.singleton_append] at hP

/-- Filling only raises counts, also if it stops early. -/
theorem size_counts_fill {σ : Type} (draw : Nat → σ → Nat × σ) (places : Nat) (s : Niching)
    (source : σ) : (fill assoc draw places s source).2.1.counts.size = s.counts.size := by
  fun_induction fill assoc draw places s source with
  | case1 s source => rfl
  | case2 places s source hpool => rfl
  | case3 places s source hpool place source' hdraw hmove => rfl
  | case4 places s source hpool place source' hdraw s' hmove ih =>
    obtain ⟨-, -, -, -, -, ⟨-, -, hcounts⟩ | ⟨-, hcounts, -⟩⟩ := moveIn_cases hmove
    · rw [ih, hcounts]
    · rw [ih, hcounts, Array.size_modify]

end Niching

end ParetoSelection
