import Mathlib.Data.List.Destutter
import Mathlib.Data.List.Sort
import ParetoSelection.Proofs.Nsga3.Evenness
import ParetoSelection.Proofs.Nsga3.Tables

/-!
# Niching in arrays

Niching changes four arrays: survivors, remaining candidates, the pool of directions and the
niche counts. It reads them at positions that earlier steps have found, and all of these are
there as long as every direction of the pool has a niche count and every remaining candidate
an association (`IsWithin`). A move keeps this, and so filling in arrays never fails and does
what filling does (`Stores.exists_fill_eq_ok`).

Two steps have another form than the one they are described by. The pool to start with is the
sorted directions of the remaining candidates without repetitions, which are all directions
with a candidate in ascending order (`checkedPool_eq_ok`). And the closest candidate of a
direction is found in the same pass that counts the candidates of the direction
(`Stores.survey_eq_ok`).
-/

namespace ParetoSelection

variable {α : Type}

namespace Niching

/-- A niche count that is there is read. -/
theorem readAt_eq_count {counts : Array Nat} {d : Nat} (hd : d < counts.size) :
    readAt counts d = .ok (count counts d) :=
  readAt_eq_getD hd 0

/-! ## Sorting and dropping repetitions -/

/-- Without repetitions ascending numbers ascend strictly. -/
theorem pairwise_lt_destutter' {d : Nat} {ds : List Nat} (h : (d :: ds).Pairwise (· ≤ ·)) :
    (ds.destutter' (· ≠ ·) d).Pairwise (· < ·) := by
  induction ds generalizing d with
  | nil => exact List.pairwise_singleton _ _
  | cons e ds ih =>
    obtain ⟨hd, hds⟩ := List.pairwise_cons.1 h
    by_cases hde : d = e
    · rw [List.destutter'_cons_neg _ (not_not_intro hde)]
      exact ih (List.pairwise_cons.2 ⟨fun k hk => hd k (List.mem_cons_of_mem e hk), hds.tail⟩)
    · rw [List.destutter'_cons_pos _ hde]
      refine List.pairwise_cons.2 ⟨fun k hk => ?_, ih hds⟩
      have hlt : d < e := Nat.lt_of_le_of_ne (hd e List.mem_cons_self) hde
      obtain rfl | hk := List.mem_cons.1 ((List.destutter'_sublist _ _ _).subset hk)
      · exact hlt
      · exact Nat.lt_of_lt_of_le hlt ((List.pairwise_cons.1 hds).1 k hk)

/-- Nothing is lost with the repetitions. -/
theorem mem_destutter'_iff {d k : Nat} {ds : List Nat} :
    k ∈ ds.destutter' (· ≠ ·) d ↔ k ∈ d :: ds := by
  refine ⟨fun hk => (List.destutter'_sublist _ _ _).subset hk, fun hk => ?_⟩
  induction ds generalizing d with
  | nil => exact hk
  | cons e ds ih =>
    by_cases hde : d = e
    · subst hde
      rw [List.destutter'_cons_neg _ (not_not_intro rfl)]
      obtain rfl | hk := List.mem_cons.1 hk
      · exact ih List.mem_cons_self
      · exact ih hk
    · rw [List.destutter'_cons_pos _ hde]
      obtain rfl | hk := List.mem_cons.1 hk
      · exact List.mem_cons_self
      · exact List.mem_cons_of_mem d (ih hk)

/-- **Sorting numbers and dropping repetitions** lists them in ascending order, each once. -/
theorem destutter_stableSort_eq {ds : List Nat} {bound : Nat} (h : ∀ d ∈ ds, d < bound) :
    (stableSort (fun d e => d ≤ e) ds).destutter (· ≠ ·)
      = (List.range bound).filter fun d => d ∈ ds := by
  have hmem (k : Nat) : k ∈ stableSort (fun d e => d ≤ e) ds ↔ k ∈ ds :=
    (stableSort_perm _ ds).mem_iff
  have hsorted := pairwise_le_stableSort ds
  generalize stableSort (fun d e => d ≤ e) ds = sorted at hmem hsorted ⊢
  have hstrict : (sorted.destutter (· ≠ ·)).Pairwise (· < ·)
      ∧ ∀ k, k ∈ sorted.destutter (· ≠ ·) ↔ k ∈ sorted := by
    cases sorted with
    | nil => exact ⟨List.Pairwise.nil, fun k => Iff.rfl⟩
    | cons d sorted => exact ⟨pairwise_lt_destutter' hsorted, fun k => mem_destutter'_iff⟩
  refine hstrict.1.eq_of_mem_iff (List.pairwise_lt_range.filter _) fun k => ?_
  rw [hstrict.2, hmem, List.mem_filter, List.mem_range, decide_eq_true_iff]
  exact (and_iff_right_of_imp (h k)).symm

variable {assoc : Nat → Association α}

/-- The directions of some candidates are those with one of them. -/
theorem destutter_directions_eq {remaining : List Nat} {bound : Nat}
    (h : ∀ i ∈ remaining, (assoc i).direction < bound) :
    (stableSort (fun d e => d ≤ e) (remaining.map fun i => (assoc i).direction)).destutter (· ≠ ·)
      = (List.range bound).filter fun d => remaining.any fun i => (assoc i).direction = d := by
  rw [destutter_stableSort_eq (List.forall_mem_map.2 h)]
  refine List.filter_congr fun d _ => Bool.eq_iff_iff.2 ?_
  rw [decide_eq_true_iff, List.mem_map, List.any_eq_true]
  exact exists_congr fun i => and_congr_right fun _ => decide_eq_true_iff.symm

variable [Scalar α] {table : Array (Association α)}

/-- **The pool to start with** is found by sorting, if there is a niche count for every
direction of a remaining candidate. -/
theorem checkedPool_eq_ok {counts : Array Nat} {remaining : List Nat}
    (hremaining : ∀ i ∈ remaining, i < table.size)
    (hdirection : ∀ i ∈ remaining, (Association.lookUp table i).direction < counts.size) :
    checkedPool table counts remaining
      = .ok (initialPool (Association.lookUp table) counts remaining) := by
  have hlinked : (remaining.mapM fun i => do return (← readAt table i).direction)
      = .ok (remaining.map fun i => (Association.lookUp table i).direction) :=
    mapM_eq_ok fun i hi => by
      rw [Association.readAt_eq_lookUp (hremaining i hi)]
      rfl
  have hcounted : ∀ d ∈ (List.range counts.size).filter fun d =>
      remaining.any fun i => (Association.lookUp table i).direction = d, d < counts.size :=
    fun d hd => List.mem_range.1 (List.mem_of_mem_filter hd)
  rw [checkedPool, hlinked, ok_bind, initialPool]
  dsimp only
  rw [destutter_directions_eq hdirection]
  generalize ((List.range counts.size).filter fun d =>
    remaining.any fun i => (Association.lookUp table i).direction = d) = pool at hcounted ⊢
  have hkeyed : (pool.mapM fun d => do return (← readAt counts d, d))
      = .ok (pool.map fun d => (count counts d, d)) :=
    mapM_eq_ok fun d hd => by
      rw [readAt_eq_count (hcounted d hd)]
      rfl
  rw [hkeyed]
  refine congrArg Except.ok ?_
  rw [stableSort_map, List.map_map]
  exact List.map_id _

/-! ## Staying within the data -/

/-- **A state that stays within the data**: there is a niche count for every direction of the
pool, and survivors and remaining candidates are below a bound. -/
structure IsWithin (candidates : Nat) (s : Niching) : Prop where
  /-- Every direction of the pool is counted. -/
  pool_lt : ∀ d ∈ s.pool, d < s.counts.size
  /-- Whoever has survived is a candidate. -/
  survivors_lt : ∀ i ∈ s.survivors, i < candidates
  /-- Whoever remains is a candidate. -/
  remaining_lt : ∀ i ∈ s.remaining, i < candidates

omit [Scalar α] in
/-- So does the state to start with, whatever the niche counts are. -/
theorem isWithin_initialPool {candidates : Nat} (counts : Array Nat)
    {survivors remaining : List Nat} (hsurvivors : ∀ i ∈ survivors, i < candidates)
    (hremaining : ∀ i ∈ remaining, i < candidates) :
    IsWithin candidates ⟨survivors, remaining, initialPool assoc counts remaining, counts⟩ where
  pool_lt _ hd := List.mem_range.1 (List.mem_of_mem_filter ((stableSort_perm _ _).subset hd))
  survivors_lt := hsurvivors
  remaining_lt := hremaining

/-- **A move stays within the data.** -/
theorem IsWithin.of_moveIn {candidates : Nat} {s s' : Niching} (h : s.IsWithin candidates)
    {place : Nat} (hplace : place < s.pool.length) (hmove : s.moveIn assoc place = some s') :
    s'.IsWithin candidates := by
  obtain ⟨i, hsurvivors, hperm, -⟩ := exists_of_moveIn hmove
  refine ⟨fun d hd => ?_, fun j hj => ?_,
    fun j hj => h.remaining_lt j (hperm.subset (List.mem_cons_of_mem i hj))⟩
  · obtain ⟨-, -, -, -, -, ⟨-, hleft, hcounts⟩ | ⟨-, hcounts, hordered⟩⟩ := moveIn_cases hmove
    · rw [hleft] at hd
      rw [hcounts]
      exact h.pool_lt d (List.mem_of_mem_eraseIdx hd)
    · rw [hordered] at hd
      rw [hcounts, Array.size_modify]
      exact h.pool_lt d ((reorderPool_perm _ hplace).subset hd)
  · rw [hsurvivors] at hj
    obtain hj | hj := List.mem_append.1 hj
    · exact h.survivors_lt j hj
    · obtain rfl := List.mem_singleton.1 hj
      exact h.remaining_lt j (hperm.subset List.mem_cons_self)

/-! ## The steps of a move -/

omit [Scalar α] in
/-- Two elements are exchanged in an array as they are in a list. -/
theorem exchangeAt_eq_ok {xs : Array Nat} {i j : Nat} (hi : i < xs.size) (hj : j < xs.size) :
    ∃ ys, exchangeAt xs i j = .ok ys ∧ ys.toList = exchange xs.toList i j := by
  have hi' : i < xs.toList.length := hi
  have hj' : j < xs.toList.length := hj
  refine ⟨xs.swap i j hi hj, dif_pos ⟨hi, hj⟩, ?_⟩
  rw [Array.toList_swap, exchange, List.getD_eq_getElem _ _ hi', List.getD_eq_getElem _ _ hj']
  rfl

/-- An element is taken out of an array, and the last one fills its place. -/
theorem fillGapAt_eq_ok {xs : Array Nat} {i : Nat} (hi : i < xs.size) :
    ∃ ys, fillGapAt xs i = .ok ys ∧ ys.toList = fillGap xs.toList i := by
  have hlast : xs.size - 1 < xs.size := by omega
  have hlast' : xs.toList.length - 1 < xs.toList.length := hlast
  refine ⟨(xs.set i (xs.getD (xs.size - 1) 0) hi).pop, ?_, ?_⟩
  · rw [fillGapAt, readAt_eq_getD hlast 0]
    dsimp only [bind, Except.bind]
    rw [writeAt, dif_pos hi]
    rfl
  · rw [Array.toList_pop, Array.toList_set, fillGap, List.getLast?_eq_getElem?,
      Array.getD_eq_getD_getElem?, ← Array.getElem?_toList]
    rfl

/-- An element is taken out of an array, and those behind it move up. -/
theorem removeAt_eq_ok {xs : Array Nat} {i : Nat} (hi : i < xs.size) :
    ∃ ys, removeAt xs i = .ok ys ∧ ys.toList = xs.toList.eraseIdx i :=
  ⟨xs.eraseIdx i hi, dif_pos hi, Array.toList_eraseIdx⟩

/-- A niche count is raised where it is. -/
theorem writeAt_succ_eq_ok {counts : Array Nat} {d : Nat} (hd : d < counts.size) :
    writeAt counts d (count counts d + 1) = .ok (counts.modify d (· + 1)) := by
  rw [writeAt, dif_pos hd, count]
  refine congrArg Except.ok (Array.ext ?_ fun k hk hk' => ?_)
  · rw [Array.size_set, Array.size_modify]
  · rw [Array.getElem_set, Array.getElem_modify]
    by_cases hdk : d = k
    · subst hdk
      rw [if_pos rfl, if_pos rfl, Array.getD_eq_getD_getElem?, Array.getElem?_eq_getElem hd]
      rfl
    · rw [if_neg hdk, if_neg hdk]

/-- What is at a position of an array is at this position of its list. -/
theorem readAt_eq_getD_toList {xs : Array Nat} {i : Nat} (hi : i < xs.size) :
    readAt xs i = .ok (xs.toList.getD i 0) := by
  rw [readAt_eq_getD hi 0, ← getD_toArray]

namespace Stores

/-- **How many directions to draw from** is found within the pool. -/
theorem minimalCount_eq_ok {s : Stores} {candidates : Nat} (h : s.contents.IsWithin candidates)
    (hne : s.pool.toList ≠ []) : s.minimalCount = .ok s.contents.minimalCount := by
  obtain ⟨first, rest, hpool⟩ := List.exists_cons_of_ne_nil hne
  have hfirst : readAt s.pool 0 = .ok first := by
    rw [readAt_eq_getD_toList (List.length_pos_iff.2 hne), hpool]
    rfl
  have hcount : ∀ d ∈ s.pool.toList, readAt s.counts d = .ok (count s.counts d) :=
    fun d hd => readAt_eq_count (h.pool_lt d hd)
  have hleading :
      leading (fun d => do return (← readAt s.counts d) = count s.counts first) s.pool.toList
        = .ok (s.pool.toList.takeWhile fun d => count s.counts d = count s.counts first).length :=
    leading_eq_ok fun d hd => by
      rw [hcount d hd]
      rfl
  rw [minimalCount, hfirst, ok_bind, hcount first (hpool ▸ List.mem_cons_self)]
  refine hleading.trans ?_
  rw [Niching.minimalCount, contents, hpool]
  rfl

/-- What a search has found after some places of a direction: how many there are, and the
closest. -/
def found (assoc : Nat → Association α) (remaining : List Nat) : List Nat → Nat × Option Nat
  | [] => (0, none)
  | first :: rest => (rest.length + 1, some (closestPlace assoc remaining first rest))

/-- One more place of the direction is the closest, or the one before still is. -/
theorem found_concat (remaining places : List Nat) (k : Nat) :
    found assoc remaining (places ++ [k])
      = ((found assoc remaining places).1 + 1,
          some (match (found assoc remaining places).2 with
            | none => k
            | some best =>
              if (assoc (remaining.getD k 0)).distance < (assoc (remaining.getD best 0)).distance
              then k else best)) := by
  cases places with
  | nil => rfl
  | cons first rest =>
    rw [List.cons_append, found, found, closestPlace, List.foldl_append, List.length_append]
    rfl

/-- The closest of some places is one of them. -/
theorem mem_of_found {remaining places : List Nat} {k : Nat}
    (h : (found assoc remaining places).2 = some k) : k ∈ places := by
  cases places with
  | nil => cases h
  | cons first rest =>
    obtain rfl := Option.some.inj h
    exact closestPlace_mem remaining first rest

/-- **A visit adds a place** if the candidate there is of the direction. -/
theorem visit_eq_ok {remaining : Array Nat} (h : ∀ i ∈ remaining.toList, i < table.size)
    (d : Nat) {places : List Nat} (hplaces : ∀ k ∈ places, k < remaining.size) {k : Nat}
    (hk : k < remaining.size) :
    visit table remaining d (found (Association.lookUp table) remaining.toList places) k
      = .ok (found (Association.lookUp table) remaining.toList (places ++ [k].filter fun k =>
          (Association.lookUp table (remaining.toList.getD k 0)).direction = d)) := by
  have hread (k : Nat) (hk : k < remaining.size) :
      readAt remaining k = .ok (remaining.toList.getD k 0)
        ∧ readAt table (remaining.toList.getD k 0)
          = .ok (Association.lookUp table (remaining.toList.getD k 0)) :=
    ⟨readAt_eq_getD_toList hk, Association.readAt_eq_lookUp (h _ (getD_mem hk))⟩
  obtain ⟨hplace, hentry⟩ := hread k hk
  rw [visit, hplace, ok_bind, hentry, ok_bind]
  by_cases hd : (Association.lookUp table (remaining.toList.getD k 0)).direction = d
  · rw [List.filter_cons, List.filter_nil, if_pos (decide_eq_true hd), found_concat,
      if_neg (not_not_intro hd)]
    cases hbest : (found (Association.lookUp table) remaining.toList places).2 with
    | none => rfl
    | some best =>
      obtain ⟨hplace', hentry'⟩ := hread best (hplaces best (mem_of_found hbest))
      dsimp only
      rw [hplace', ok_bind, hentry']
      rfl
  · rw [List.filter_cons, List.filter_nil, if_neg (mt of_decide_eq_true hd), List.append_nil,
      if_pos hd]
    rfl

/-- **One pass finds the closest candidate** of a direction, and how many there are. -/
theorem survey_eq_ok {remaining : Array Nat} (h : ∀ i ∈ remaining.toList, i < table.size)
    (d : Nat) :
    survey table remaining d = .ok (found (Association.lookUp table) remaining.toList
      (placesOf (Association.lookUp table) remaining.toList d)) := by
  -- before place `k`, the places of the direction below `k` have been visited
  obtain ⟨met, hloop, hmet⟩ := exists_foldlM_range'_eq_ok
    (f := visit table remaining d) (s := (0, none))
    (P := fun k met => met = found (Association.lookUp table) remaining.toList
      ((List.range k).filter fun k =>
        (Association.lookUp table (remaining.toList.getD k 0)).direction = d))
    0 remaining.size
    (fun k met _ hk hmet => by
      rw [Nat.zero_add] at hk
      refine ⟨_, ?_, rfl⟩
      rw [hmet, List.range_succ, List.filter_append]
      refine visit_eq_ok h d (fun place hplace => ?_) hk
      exact Nat.lt_trans (List.mem_range.1 (List.mem_of_mem_filter hplace)) hk)
    rfl
  rw [survey, hloop, hmet, Nat.zero_add]
  rfl

/-- A direction whose count has been raised goes behind those that it no longer precedes. -/
theorem moveBack_eq_ok {counts pool : Array Nat} (h : ∀ d ∈ pool.toList, d < counts.size)
    {place : Nat} (hplace : place < pool.size) :
    ∃ pool', moveBack counts pool place (count counts (pool.toList.getD place 0)) = .ok pool'
      ∧ pool'.toList = reorderPool counts pool.toList place := by
  generalize hraised : count counts (pool.toList.getD place 0) = raised
  have hleading :
      leading (fun d => do return (← readAt counts d) < raised) (pool.toList.drop (place + 1))
        = .ok ((pool.toList.drop (place + 1)).takeWhile fun d => count counts d < raised).length :=
    leading_eq_ok fun d hd => by
      rw [readAt_eq_count (h d (List.mem_of_mem_drop hd))]
      rfl
  have hpassed : place + ((pool.toList.drop (place + 1)).takeWhile fun d =>
      count counts d < raised).length < pool.size := by
    have hlen := (List.takeWhile_sublist (l := pool.toList.drop (place + 1))
      fun d => count counts d < raised).length_le
    have hall : pool.toList.length = pool.size := Array.length_toList
    rw [List.length_drop] at hlen
    omega
  obtain ⟨pool', hexchange, hpool'⟩ := exchangeAt_eq_ok hplace hpassed
  refine ⟨pool', ?_, ?_⟩
  · rw [moveBack, hleading]
    exact hexchange
  · rw [hpool', reorderPool, hraised]

/-- **A move in arrays is a move.** -/
theorem exists_moveIn_eq_ok {s : Stores} (h : s.contents.IsWithin table.size) {place : Nat}
    (hplace : place < s.pool.size) :
    ∃ moved, s.moveIn table place = .ok moved
      ∧ moved.map contents = s.contents.moveIn (Association.lookUp table) place := by
  have hd := readAt_eq_getD_toList hplace
  have hcounted : s.pool.toList.getD place 0 < s.counts.size := h.pool_lt _ (getD_mem hplace)
  have hsurvey := survey_eq_ok h.remaining_lt (s.pool.toList.getD place 0)
  rw [moveIn, hd, ok_bind, hsurvey, ok_bind, Niching.moveIn]
  dsimp only [contents]
  cases hplaces : placesOf (Association.lookUp table) s.remaining.toList
      (s.pool.toList.getD place 0) with
  | nil => exact ⟨none, rfl, rfl⟩
  | cons first rest =>
    have hclosest :
        closestPlace (Association.lookUp table) s.remaining.toList first rest ∈ first :: rest :=
      closestPlace_mem s.remaining.toList first rest
    rw [← hplaces] at hclosest
    have hk := (mem_placesOf.1 hclosest).1
    rw [found]
    dsimp only
    generalize closestPlace (Association.lookUp table) s.remaining.toList first rest = k at hk ⊢
    have hk' : k < s.remaining.size := hk
    obtain ⟨left, hgap, hleft⟩ := fillGapAt_eq_ok hk'
    rw [readAt_eq_getD_toList hk', ok_bind, hgap, ok_bind]
    cases rest with
    | nil =>
      obtain ⟨pool, hremove, hpool⟩ := removeAt_eq_ok hplace
      have hone : ([] : List Nat).length + 1 = 1 := rfl
      rw [if_pos hone, hremove]
      refine ⟨_, rfl, ?_⟩
      rw [Option.map_some, contents, Array.toList_push, hleft, hpool]
      rfl
    | cons next rest =>
      have hmore : (next :: rest).length + 1 ≠ 1 := by
        rw [List.length_cons]
        omega
      have hraised : count s.counts (s.pool.toList.getD place 0) + 1
          = count (s.counts.modify (s.pool.toList.getD place 0) (· + 1))
            (s.pool.toList.getD place 0) := by
        rw [count_modify hcounted, if_pos rfl]
      have hpool : ∀ d ∈ s.pool.toList,
          d < (s.counts.modify (s.pool.toList.getD place 0) (· + 1)).size := by
        rw [Array.size_modify]
        exact h.pool_lt
      obtain ⟨pool, hback, hordered⟩ := moveBack_eq_ok hpool hplace
      rw [← hraised] at hback
      rw [if_neg hmore, readAt_eq_count hcounted, ok_bind, writeAt_succ_eq_ok hcounted, ok_bind,
        hback]
      refine ⟨_, rfl, ?_⟩
      rw [Option.map_some, contents, Array.toList_push, hleft, hordered]
      rfl

/-- **Filling in arrays is filling**, from any source of draws in range, and it stays within
the data. -/
theorem exists_fill_eq_ok {σ : Type} {draw : Nat → σ → Nat × σ}
    (hdraw : ∀ n source, 0 < n → (draw n source).1 < n) (places : Nat) {s : Stores}
    (h : s.contents.IsWithin table.size) (source : σ) :
    ∃ outcome t source', fill table draw places s source = .ok (outcome, t, source')
      ∧ Niching.fill (Association.lookUp table) draw places s.contents source
        = (outcome, t.contents, source')
      ∧ t.contents.IsWithin table.size := by
  induction places generalizing s source with
  | zero => exact ⟨_, _, _, rfl, rfl, h⟩
  | succ places ih =>
    rw [fill, Niching.fill]
    by_cases hempty : s.pool.isEmpty
    · have hnone : s.contents.pool.isEmpty = true := by
        rwa [contents, Array.isEmpty_toList]
      rw [if_pos hempty, if_pos hnone]
      exact ⟨_, _, _, rfl, rfl, h⟩
    · have hsome : ¬ s.contents.pool.isEmpty = true := by
        rwa [contents, Array.isEmpty_toList]
      have hne : s.pool.toList ≠ [] := mt List.isEmpty_iff.2 hsome
      obtain ⟨hpos, hle⟩ := minimalCount_bounds (s := s.contents) hne
      have hplace : (draw s.contents.minimalCount source).1 < s.pool.size :=
        Nat.lt_of_lt_of_le (hdraw _ source hpos) hle
      obtain ⟨moved, hmove, hmoved⟩ := exists_moveIn_eq_ok h hplace
      rw [if_neg hempty, if_neg hsome, minimalCount_eq_ok h hne, ok_bind,
        if_neg (Nat.ne_of_gt hpos)]
      dsimp only
      rw [hmove, ok_bind, ← hmoved]
      cases moved with
      | none =>
        dsimp only
        rw [readAt_eq_getD_toList hplace]
        exact ⟨_, _, _, rfl, rfl, h⟩
      | some moved => exact ih (h.of_moveIn hplace hmoved.symm) _

/-- **Niching in arrays is niching**, from the pool to start with to the associations of the
survivors, if survivors and remaining candidates have an association and all directions a
niche count. -/
theorem exists_fill_checkedPool_eq_ok {σ : Type} {draw : Nat → σ → Nat × σ}
    (hdraw : ∀ n source, 0 < n → (draw n source).1 < n) (places : Nat) {counts : Array Nat}
    {survivors remaining : List Nat} (hsurvivors : ∀ i ∈ survivors, i < table.size)
    (hremaining : ∀ i ∈ remaining, i < table.size)
    (hdirection : ∀ i, (Association.lookUp table i).direction < counts.size) (source : σ) :
    ∃ pool outcome t source', checkedPool table counts remaining = .ok pool
      ∧ fill table draw places ⟨survivors.toArray, remaining.toArray, pool.toArray, counts⟩ source
        = .ok (outcome, t, source')
      ∧ Niching.fill (Association.lookUp table) draw places ⟨survivors, remaining,
          initialPool (Association.lookUp table) counts remaining, counts⟩ source
        = (outcome, t.contents, source')
      ∧ t.survivors.toList.mapM (readAt table)
        = .ok (t.survivors.toList.map (Association.lookUp table)) := by
  obtain ⟨outcome, t, source', hchecked, hfill, hkept⟩ := exists_fill_eq_ok hdraw places
    (s := ⟨survivors.toArray, remaining.toArray,
      (initialPool (Association.lookUp table) counts remaining).toArray, counts⟩)
    (isWithin_initialPool counts hsurvivors hremaining) source
  exact ⟨_, outcome, t, source', checkedPool_eq_ok hremaining fun i _ => hdirection i, hchecked,
    hfill, mapM_eq_ok fun i hi => Association.readAt_eq_lookUp (hkept.survivors_lt i hi)⟩

end Stores

end Niching

end ParetoSelection
