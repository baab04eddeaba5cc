import Mathlib.Data.List.TakeWhile
import ParetoSelection.Proofs.Nsga3.Niching
import ParetoSelection.Proofs.StableSort

/-!
# Niching keeps the directions even

What is asked of the directions is that none gets far ahead: a direction that
has received a member has at most one member more than any direction that still
has a candidate to offer. This holds at every moment (`Niching.IsEven`), for a
draw always falls on a direction with the fewest members of all directions in the
pool.

That the draw does so is a matter of the order of the pool. Only its first
directions are drawn from, as many as share the count of the very first one, and
these are the least crowded ones because the pool is in ascending order of the
counts. A move keeps that order with a single exchange: the direction whose count
has been raised changes places with the last one of those that shared its count
(`pairwise_reorderPool`).

A direction that gives its last candidate is not counted up, but it leaves the
pool; so the counts of the pool, and only these, are the true numbers of members.

Within a direction the closest candidate goes first (`closestPlace_lowest`). All
that this takes of the comparison of distances is that it is irreflexive and
transitive, which also holds where some distances cannot be compared.
-/

namespace ParetoSelection

namespace Niching

variable {α : Type} {assoc : Nat → Association α}

/-! ## The number of members of a direction -/

/-- **How many members a direction has.** -/
def occupancy (assoc : Nat → Association α) (members : List Nat) (d : Nat) : Nat :=
  members.countP fun i => (assoc i).direction = d

/-- One more member counts for its own direction. -/
theorem occupancy_concat (members : List Nat) (i d : Nat) :
    occupancy assoc (members ++ [i]) d
      = occupancy assoc members d + if (assoc i).direction = d then 1 else 0 := by
  unfold occupancy
  rw [List.countP_append, List.countP_singleton]
  by_cases hd : (assoc i).direction = d
  · rw [decide_eq_true hd, if_pos rfl, if_pos hd]
  · rw [decide_eq_false hd, if_neg Bool.false_ne_true, if_neg hd]

/-- Raising the count of a direction raises no other one. -/
theorem count_modify {counts : Array Nat} {d : Nat} (hd : d < counts.size) (e : Nat) :
    count (counts.modify d (· + 1)) e = count counts e + if d = e then 1 else 0 := by
  unfold count
  rw [Array.getD_eq_getD_getElem?, Array.getElem?_modify, Array.getD_eq_getD_getElem?]
  split
  · rename_i h
    subst h
    rw [Array.getElem?_eq_getElem hd]
    rfl
  · rfl

/-! ## The closest candidate -/

/-- **No candidate of the direction is closer** than the one that moves in, for
any comparison of distances that is irreflexive and transitive. -/
theorem closestPlace_lowest [Scalar α] (irrefl : ∀ a : α, ¬ a < a)
    (trans : ∀ a b c : α, a < b → b < c → a < c) (remaining : List Nat) (first : Nat)
    (rest : List Nat) {k : Nat} (hk : k ∈ first :: rest) :
    ¬ (assoc (remaining.getD k 0)).distance
      < (assoc (remaining.getD (closestPlace assoc remaining first rest) 0)).distance := by
  induction rest using List.reverseRecOn with
  | nil =>
    rw [List.mem_singleton.1 hk]
    exact irrefl _
  | append_singleton rest last ih =>
    have hlast : closestPlace assoc remaining first (rest ++ [last])
        = if (assoc (remaining.getD last 0)).distance
            < (assoc (remaining.getD (closestPlace assoc remaining first rest) 0)).distance
          then last else closestPlace assoc remaining first rest := by
      unfold closestPlace
      rw [List.foldl_concat]
    rw [hlast]
    rw [← List.cons_append, List.mem_append, List.mem_singleton] at hk
    split
    · rename_i hcloser
      obtain hk | rfl := hk
      · exact fun hlt => ih hk (trans _ _ _ hlt hcloser)
      · exact irrefl _
    · rename_i hnot
      obtain hk | rfl := hk
      · exact ih hk
      · exact hnot

/-! ## The pool stays in order -/

/-- The first direction of a pool in ascending order is a least crowded one. -/
theorem count_headD_le {counts : Array Nat} {pool : List Nat}
    (hascending : pool.Pairwise fun d e => count counts d ≤ count counts e) {e : Nat}
    (he : e ∈ pool) : count counts (pool.headD 0) ≤ count counts e := by
  obtain ⟨c, pool, rfl⟩ := List.exists_cons_of_ne_nil (List.ne_nil_of_mem he)
  obtain rfl | he := List.mem_cons.1 he
  · exact Nat.le_refl _
  · exact (List.pairwise_cons.1 hascending).1 e he

/-- **The draw falls on a least crowded direction** of a pool in ascending
order. -/
theorem count_le_of_lt_minimalCount {s : Niching}
    (hascending : s.pool.Pairwise fun d e => count s.counts d ≤ count s.counts e) {place : Nat}
    (hplace : place < s.minimalCount) {e : Nat} (he : e ∈ s.pool) :
    count s.counts (s.pool.getD place 0) ≤ count s.counts e := by
  unfold minimalCount at hplace
  have hlead : (s.pool.takeWhile fun d => count s.counts d = count s.counts (s.pool.headD 0))
      <+: s.pool := List.takeWhile_prefix _
  have hshared := List.mem_takeWhile_imp (List.getElem_mem hplace)
  rw [hlead.getElem hplace, decide_eq_true_iff] at hshared
  rw [List.getD_eq_getElem _ _ (Nat.lt_of_lt_of_le hplace hlead.length_le), hshared]
  exact count_headD_le hascending he

/-- **An exchange with the last of a block** puts an element behind the block, and
leaves what follows alone. -/
theorem exists_exchange_eq (before passed after : List Nat) (d : Nat) :
    ∃ low, low.Perm (before ++ passed)
      ∧ exchange (before ++ d :: (passed ++ after)) before.length (before.length + passed.length)
        = low ++ d :: after := by
  cases passed using List.reverseRecOn with
  | nil =>
    refine ⟨before, by rw [List.append_nil], ?_⟩
    simp [exchange]
  | append_singleton passed last =>
    refine ⟨before ++ last :: passed, ?_, ?_⟩
    · exact (List.perm_append_singleton last passed).symm.append_left before
    · simp [exchange]

/-- What is left of an ascending list behind its small elements is large. -/
theorem le_of_mem_dropWhile {key : Nat → Nat} {xs : List Nat}
    (h : xs.Pairwise fun d e => key d ≤ key e) {bound y : Nat}
    (hy : y ∈ xs.dropWhile fun d => key d < bound) : bound ≤ key y := by
  induction xs with
  | nil => exact absurd hy List.not_mem_nil
  | cons x xs ih =>
    rw [List.dropWhile_cons] at hy
    obtain ⟨hx, hxs⟩ := List.pairwise_cons.1 h
    split at hy
    · exact ih hxs hy
    · rename_i hlarge
      have hlarge : bound ≤ key x := Nat.le_of_not_lt fun hlt => hlarge (decide_eq_true hlt)
      obtain rfl | hy := List.mem_cons.1 hy
      · exact hlarge
      · exact Nat.le_trans hlarge (hx y hy)

/-- **A list stays in ascending order** when one of its least elements grows by one
and goes behind those that it then exceeds. -/
theorem pairwise_raised {key raised : Nat → Nat} {before passed after low : List Nat} {d : Nat}
    (hnodup : (before ++ d :: (passed ++ after)).Nodup)
    (hascending : (before ++ d :: (passed ++ after)).Pairwise fun e f => key e ≤ key f)
    (hleast : ∀ e ∈ before ++ passed, key d ≤ key e)
    (hraised : ∀ e, raised e = key e + if d = e then 1 else 0)
    (hpassed : ∀ e ∈ passed, raised e < raised d) (hafter : ∀ e ∈ after, raised d ≤ raised e)
    (hlow : low.Perm (before ++ passed)) :
    (low ++ d :: after).Pairwise fun e f => raised e ≤ raised f := by
  have hd : raised d = key d + 1 := by rw [hraised, if_pos rfl]
  rw [List.nodup_middle, List.nodup_cons, List.mem_append, List.mem_append, not_or,
    not_or] at hnodup
  have hother {e : Nat} (he : d ≠ e) : raised e = key e := by
    rw [hraised, if_neg he, Nat.add_zero]
  rw [List.pairwise_append, List.pairwise_cons, List.pairwise_append] at hascending
  obtain ⟨-, ⟨-, -, hascending, -⟩, hbefore⟩ := hascending
  -- whoever comes first now has the value that `d` had
  have hshared : ∀ e ∈ low, raised e = key d := by
    intro e he
    have he := hlow.mem_iff.1 he
    have hle := hleast e he
    obtain he | he := List.mem_append.1 he
    · have hne : d ≠ e := fun hde => hnodup.1.1 (by rwa [hde])
      have hge := hbefore e he d List.mem_cons_self
      rw [hother hne]
      exact Nat.le_antisymm hge hle
    · have hne : d ≠ e := fun hde => hnodup.1.2.1 (by rwa [hde])
      have hlt := hpassed e he
      rw [hd, hother hne] at hlt
      rw [hother hne]
      exact Nat.le_antisymm (Nat.le_of_lt_succ hlt) hle
  refine List.pairwise_append.2 ⟨?_, List.pairwise_cons.2 ⟨hafter, ?_⟩, fun e he f hf => ?_⟩
  · refine List.pairwise_of_forall_mem_list fun e he f hf => ?_
    rw [hshared e he, hshared f hf]
  · refine hascending.imp_of_mem fun {e f} he hf hle => ?_
    have hne {e : Nat} (he : e ∈ after) : d ≠ e := fun hde => hnodup.1.2.2 (by rwa [hde])
    rwa [hother (hne he), hother (hne hf)]
  · rw [hshared e he]
    obtain rfl | hf := List.mem_cons.1 hf
    · rw [hd]
      exact Nat.le_succ _
    · exact Nat.le_trans (by rw [hd]; exact Nat.le_succ _) (hafter f hf)

/-- **The pool stays in ascending order** when the count of a least crowded
direction is raised. -/
theorem pairwise_reorderPool {counts : Array Nat} {pool : List Nat} {place : Nat}
    (hplace : place < pool.length) (hnodup : pool.Nodup)
    (hsize : pool.getD place 0 < counts.size)
    (hascending : pool.Pairwise fun d e => count counts d ≤ count counts e)
    (hleast : ∀ e ∈ pool, count counts (pool.getD place 0) ≤ count counts e) :
    (reorderPool (counts.modify (pool.getD place 0) (· + 1)) pool place).Pairwise fun d e =>
      count (counts.modify (pool.getD place 0) (· + 1)) d
        ≤ count (counts.modify (pool.getD place 0) (· + 1)) e := by
  have hraised := count_modify hsize
  unfold reorderPool
  dsimp only
  generalize counts.modify (pool.getD place 0) (· + 1) = raised at hraised ⊢
  generalize hd : pool.getD place 0 = d at hraised hleast ⊢
  generalize hpassed : ((pool.drop (place + 1)).takeWhile fun e => count raised e < count raised d)
    = passed
  have hbehind : passed ++ ((pool.drop (place + 1)).dropWhile fun e =>
      count raised e < count raised d) = pool.drop (place + 1) := by
    rw [← hpassed]
    exact List.takeWhile_append_dropWhile
  generalize hafter : ((pool.drop (place + 1)).dropWhile fun e => count raised e < count raised d)
    = after at hbehind
  have hpool : pool.take place ++ d :: (passed ++ after) = pool := by
    rw [hbehind, ← hd, List.getD_eq_getElem _ _ hplace, ← List.drop_eq_getElem_cons hplace,
      List.take_append_drop]
  obtain ⟨low, hlow, hexchange⟩ := exists_exchange_eq (pool.take place) passed after d
  rw [hpool, List.length_take_of_le (Nat.le_of_lt hplace)] at hexchange
  rw [hexchange]
  refine pairwise_raised (by rwa [hpool]) (by rwa [hpool]) (fun e he => hleast e ?_) hraised
    (fun e he => ?_) (fun e he => ?_) hlow
  · rw [← hpool, List.mem_append, List.mem_cons, List.mem_append]
    obtain he | he := List.mem_append.1 he
    · exact Or.inl he
    · exact Or.inr (Or.inr (Or.inl he))
  · rw [← hpassed] at he
    have hlt := List.mem_takeWhile_imp he
    exact of_decide_eq_true hlt
  · -- behind the direction there are only others, whose counts are as they were
    rw [← hpool, List.nodup_middle, List.nodup_cons, hbehind] at hnodup
    rw [← hafter] at he
    refine le_of_mem_dropWhile ?_ he
    refine (hascending.sublist (List.drop_sublist _ _)).imp_of_mem fun {e f} he hf hle => ?_
    have hne {e : Nat} (he : e ∈ pool.drop (place + 1)) : d ≠ e :=
      fun hde => hnodup.1 (List.mem_append_right _ (by rwa [hde]))
    rwa [hraised, hraised, if_neg (hne he), if_neg (hne hf)]

/-! ## No direction gets ahead -/

variable (assoc) in
/-- **No direction gets far ahead** of one that still has a candidate, among those
that a candidate has been taken for. The pool is exact and in ascending order, and
its counts are true. -/
structure IsEven (taken : List Nat) (s : Niching) : Prop where
  /-- The pool is the directions of the remaining candidates. -/
  consistent : s.IsConsistent assoc
  /-- The directions of the pool are counted. -/
  lt_size : ∀ d ∈ s.pool, d < s.counts.size
  /-- Directions with few members come first in the pool. -/
  ascending : s.pool.Pairwise fun d e => count s.counts d ≤ count s.counts e
  /-- The count of a direction of the pool is its number of members. -/
  count_eq : ∀ d ∈ s.pool, count s.counts d = occupancy assoc s.survivors d
  /-- A direction that was taken from has at most one member more than any
  direction of the pool. -/
  occupancy_le : ∀ i ∈ taken, ∀ d ∈ s.pool,
    occupancy assoc s.survivors (assoc i).direction ≤ occupancy assoc s.survivors d + 1

/-- **To start with, everything is even**: nothing has been taken, and the counts
are those of the members. -/
theorem isEven_initialPool {counts : Array Nat} {survivors : List Nat}
    (hlt : ∀ i, (assoc i).direction < counts.size)
    (hcounts : ∀ d < counts.size, count counts d = occupancy assoc survivors d)
    (remaining : List Nat) :
    IsEven assoc [] ⟨survivors, remaining, initialPool assoc counts remaining, counts⟩ := by
  have hconsistent := isConsistent_initialPool hlt survivors remaining
  have hsize : ∀ d ∈ initialPool assoc counts remaining, d < counts.size := by
    intro d hd
    obtain ⟨i, -, rfl⟩ := (hconsistent.mem_pool d).1 hd
    exact hlt i
  refine ⟨hconsistent, hsize, ?_, fun d hd => hcounts d (hsize d hd),
    fun i hi => absurd hi List.not_mem_nil⟩
  refine (pairwise_stableSort ?_ ?_ _).imp of_decide_eq_true
  · intro a b c hab hbc
    exact decide_eq_true (Nat.le_trans (of_decide_eq_true hab) (of_decide_eq_true hbc))
  · intro a b
    rw [Bool.or_eq_true, decide_eq_true_iff, decide_eq_true_iff]
    exact Nat.le_total _ _

variable [Scalar α]

/-- A move adds one member to the direction at the place, and none to the others. -/
theorem occupancy_of_moveIn {s s' : Niching} {place i : Nat}
    (hmove : s.moveIn assoc place = some s') (hsurvivors : s'.survivors = s.survivors ++ [i])
    (e : Nat) : occupancy assoc s'.survivors e
      = occupancy assoc s.survivors e + if s.pool.getD place 0 = e then 1 else 0 := by
  rw [hsurvivors, occupancy_concat, (perm_of_moveIn hmove hsurvivors).2]

/-- **The counts of the pool stay true in a move**: no direction joins the pool, and a
count is raised along with the members only. -/
theorem IsEven.count_eq_of_moveIn {taken : List Nat} {s s' : Niching} (h : s.IsEven assoc taken)
    {place i : Nat} (hplace : place < s.pool.length) (hmove : s.moveIn assoc place = some s')
    (hsurvivors : s'.survivors = s.survivors ++ [i]) {e : Nat} (he : e ∈ s'.pool) :
    e ∈ s.pool ∧ count s'.counts e = occupancy assoc s'.survivors e := by
  rw [occupancy_of_moveIn hmove hsurvivors]
  obtain ⟨_, _, -, -, -, ⟨-, hpool, hcounts⟩ | ⟨-, hcounts, hpool⟩⟩ := moveIn_cases hmove
  · rw [hpool, mem_eraseIdx_pool h.consistent.pool_nodup hplace] at he
    rw [hcounts, if_neg (Ne.symm he.2), Nat.add_zero]
    exact ⟨he.1, h.count_eq e he.1⟩
  · rw [hpool, (reorderPool_perm _ hplace).mem_iff] at he
    rw [hcounts, count_modify (h.lt_size _ (getD_mem hplace)), h.count_eq e he]
    exact ⟨he, rfl⟩

/-- **It stays even in a move**, if the draw fell on one of the least crowded
directions. -/
theorem IsEven.of_moveIn {taken : List Nat} {s s' : Niching} (h : s.IsEven assoc taken)
    {place i : Nat} (hplace : place < s.minimalCount) (hmove : s.moveIn assoc place = some s')
    (hsurvivors : s'.survivors = s.survivors ++ [i]) : s'.IsEven assoc (taken ++ [i]) := by
  have hlt : place < s.pool.length :=
    Nat.lt_of_lt_of_le hplace (List.takeWhile_sublist _).length_le
  have hleast : ∀ e ∈ s.pool, count s.counts (s.pool.getD place 0) ≤ count s.counts e :=
    fun e he => count_le_of_lt_minimalCount h.ascending hplace he
  have hd : s.pool.getD place 0 ∈ s.pool := getD_mem hlt
  have hoccupancy := occupancy_of_moveIn hmove hsurvivors
  have hpool := fun e => h.count_eq_of_moveIn hlt hmove hsurvivors (e := e)
  obtain ⟨_, _, -, -, -, hcases⟩ := moveIn_cases hmove
  refine ⟨h.consistent.of_moveIn hlt hmove, fun e he => ?_, ?_, fun e he => (hpool e he).2, ?_⟩
  · obtain ⟨-, -, hcounts⟩ | ⟨-, hcounts, -⟩ := hcases
    · rw [hcounts]
      exact h.lt_size e (hpool e he).1
    · rw [hcounts, Array.size_modify]
      exact h.lt_size e (hpool e he).1
  · obtain ⟨-, hpool, hcounts⟩ | ⟨-, hcounts, hpool⟩ := hcases
    · rw [hpool, hcounts]
      exact h.ascending.sublist (List.eraseIdx_sublist _ _)
    · rw [hpool, hcounts]
      exact pairwise_reorderPool hlt h.consistent.pool_nodup (h.lt_size _ hd) h.ascending hleast
  · intro k hk e he
    have he := (hpool e he).1
    have hle : occupancy assoc s.survivors e ≤ occupancy assoc s'.survivors e :=
      (hoccupancy e).symm ▸ Nat.le_add_right _ _
    by_cases hkd : s.pool.getD place 0 = (assoc k).direction
    · -- the direction that was drawn had no more members than any other
      have hdrawn := hleast e he
      rw [h.count_eq _ hd, h.count_eq e he] at hdrawn
      rw [← hkd, hoccupancy, if_pos rfl]
      exact Nat.succ_le_succ (Nat.le_trans hdrawn hle)
    · have hk : k ∈ taken := by
        refine (List.mem_append.1 hk).resolve_right fun hki => hkd ?_
        rw [List.mem_singleton.1 hki, (perm_of_moveIn hmove hsurvivors).2]
      rw [hoccupancy (assoc k).direction, if_neg hkd, Nat.add_zero]
      exact Nat.le_trans (h.occupancy_le k hk e he) (Nat.succ_le_succ hle)

/-! ## The closest candidates go first -/

variable (assoc) in
/-- **The closest go first**: no candidate that is left is closer to its direction
than one that was taken for the same direction. -/
def IsClosestFirst (taken remaining : List Nat) : Prop :=
  ∀ i ∈ taken, ∀ j ∈ remaining, (assoc i).direction = (assoc j).direction →
    ¬ (assoc j).distance < (assoc i).distance

/-- **The closest still go first after a move**, for a comparison of distances that
is irreflexive and transitive. -/
theorem IsClosestFirst.of_moveIn (irrefl : ∀ a : α, ¬ a < a)
    (trans : ∀ a b c : α, a < b → b < c → a < c) {taken : List Nat} {s s' : Niching}
    (h : IsClosestFirst assoc taken s.remaining) {place i : Nat}
    (hmove : s.moveIn assoc place = some s') (hsurvivors : s'.survivors = s.survivors ++ [i]) :
    IsClosestFirst assoc (taken ++ [i]) s'.remaining := by
  obtain ⟨first, rest, hplaces, hs', -, -⟩ := moveIn_cases hmove
  obtain ⟨hperm, hdirection⟩ := perm_of_moveIn hmove hsurvivors
  have hi : i = s.remaining.getD (closestPlace assoc s.remaining first rest) 0 :=
    List.singleton_injective (List.append_cancel_left (hsurvivors.symm.trans hs'))
  intro k hk j hj hkj
  have hj : j ∈ s.remaining := hperm.subset (List.mem_cons_of_mem _ hj)
  obtain hk | hk := List.mem_append.1 hk
  · exact h k hk j hj hkj
  · obtain rfl := List.mem_singleton.1 hk
    -- the candidate that is left stood at one of the places that were compared
    obtain ⟨n, hn, rfl⟩ := List.mem_iff_getElem.1 hj
    have hplace : n ∈ placesOf assoc s.remaining (s.pool.getD place 0) := by
      rw [mem_placesOf, List.getD_eq_getElem _ _ hn, ← hkj]
      exact ⟨hn, hdirection⟩
    rw [hplaces] at hplace
    have hlowest : ¬ (assoc (s.remaining.getD n 0)).distance < (assoc k).distance := by
      rw [hi]
      exact closestPlace_lowest irrefl trans s.remaining first rest hplace
    rwa [List.getD_eq_getElem _ _ hn] at hlowest

/-! ## A whole run -/

/-- **The candidates that a run takes**, from any source of draws in range: they are
as many as there are places, no direction gets ahead by them, and the closest of
every direction have gone first. -/
theorem isEven_fill {σ : Type} {draw : Nat → σ → Nat × σ}
    (hdraw : ∀ n source, 0 < n → (draw n source).1 < n) (irrefl : ∀ a : α, ¬ a < a)
    (trans : ∀ a b c : α, a < b → b < c → a < c) {places : Nat} {s s' : Niching}
    {source source' : σ} (h : s.IsEven assoc [])
    (hfill : fill assoc draw places s source = (.ok (), s', source')) :
    ∃ taken, taken.length = places ∧ s'.survivors = s.survivors ++ taken
      ∧ (taken ++ s'.remaining).Perm s.remaining ∧ s'.IsEven assoc taken
      ∧ IsClosestFirst assoc taken s'.remaining := by
  have hnone : IsClosestFirst assoc [] s.remaining := fun i hi => absurd hi List.not_mem_nil
  exact fill_invariant hdraw
    (fun hP hplace hmove hsurvivors =>
      ⟨hP.1.of_moveIn hplace hmove hsurvivors, hP.2.of_moveIn irrefl trans hmove hsurvivors⟩)
    (P := fun taken s => s.IsEven assoc taken ∧ IsClosestFirst assoc taken s.remaining)
    [] ⟨h, hnone⟩ hfill

end Niching

end ParetoSelection
