import ParetoSelection.Nsga3.Stores
import ParetoSelection.Proofs.Access
import ParetoSelection.Proofs.Nsga3.Association

/-!
# Associations and niche counts entry by entry

Candidates are associated by entering a direction and a distance for each of them into a table
that has their ranks already, and niche counts are counted up from zero by one for every
member. Both change an entry at a time. What is in the table afterwards has a closed form
(`Association.table`, `Association.nicheCounts`), and it does not depend on the order of the
entries: an entry is made from a candidate's row alone, and a count is a number of members.

No entry is missing if every candidate has a row and a rank, the search finds a direction that
is there, and there is a niche count for it.
-/

namespace ParetoSelection

variable {α : Type} [Scalar α]

namespace Association

/-! ## Associations -/

variable {e : Estimates α} {directions : ConeTree α} {m : FitnessMatrix α}

/-- What an entry for a candidate makes of its association. -/
def withLink (a : Association α) (link : Nat × α) : Association α :=
  { a with direction := link.1, distance := link.2 }

/-- **A candidate's direction and its distance**, without a look at whether they are there. -/
def link (e : Estimates α) (directions : ConeTree α) (m : FitnessMatrix α) (i : Nat) : Nat × α :=
  let hit := directions.find (e.normalize (m.row i))
  (hit.index, lineDistanceSq (directions.point hit.index) (e.normalize (m.row i)))

/-- The candidate's row is there, and so is the direction that the search finds. -/
theorem linkOf_eq_ok {i : Nat} (hi : i < m.size)
    (hindex : (directions.find (e.normalize (m.row i))).index < directions.size) :
    linkOf e directions m i = .ok (link e directions m i) := by
  have hrow : readAt m i = .ok (m.row i) := readAt_eq_getD hi []
  have hpoint := readAt_eq_getD hindex ([] : List α)
  rw [linkOf, hrow, ok_bind]
  dsimp only
  rw [hpoint]
  rfl

/-- **All entries are made**: who is chosen has its direction and distance, whoever is not is
left alone. -/
theorem foldlM_enter_eq_ok {table : Array (Association α)} (links : Nat → Nat × α)
    {chosen : List Nat} (h : ∀ i ∈ chosen, i < table.size) :
    ∃ table', (chosen.map fun i => (i, links i)).foldlM enter table = .ok table'
      ∧ table'.size = table.size
      ∧ ∀ d k, k < table.size → table'.getD k d
          = if k ∈ chosen then (table.getD k d).withLink (links k) else table.getD k d := by
  induction chosen generalizing table with
  | nil => exact ⟨table, rfl, rfl, fun d k _ => (if_neg List.not_mem_nil).symm⟩
  | cons i chosen ih =>
    have hi := h i List.mem_cons_self
    obtain ⟨entered, hwrite, hsize, hget⟩ :=
      writeAt_eq_ok ((table.getD i (unassociated 0)).withLink (links i)) hi
    obtain ⟨table', hrest, hsize', hget'⟩ :=
      ih fun k hk => hsize.symm ▸ h k (List.mem_cons_of_mem i hk)
    have henter : enter table (i, links i) = .ok entered := by
      rw [enter, readAt_eq_getD hi (unassociated 0)]
      exact hwrite
    refine ⟨table', ?_, hsize'.trans hsize, fun d k hk => ?_⟩
    · rw [List.map_cons, List.foldlM_cons, henter]
      exact hrest
    · rw [hget' d k (hsize.symm ▸ hk), hget]
      by_cases hki : k = i
      · -- Entering a second time makes the same entry.
        subst hki
        have hdefault : table.getD k (unassociated 0) = table.getD k d := by
          rw [Array.getD_eq_getD_getElem?, Array.getD_eq_getD_getElem?,
            Array.getElem?_eq_getElem hi]
          rfl
        rw [if_pos rfl, if_pos List.mem_cons_self, hdefault]
        split <;> rfl
      · rw [if_neg hki]
        simp only [List.mem_cons, hki, false_or]

/-- The closed form of the table, entry by entry. -/
theorem getD_table {ranks chosen : List Nat} {k : Nat} (hk : k < ranks.length) :
    (table e directions m ranks chosen).getD k (unassociated 0)
      = if k ∈ chosen then (unassociated (ranks.getD k 0)).withLink (link e directions m k)
        else unassociated (ranks.getD k 0) := by
  rw [table, getD_toArray, List.getD_eq_getElem?_getD, List.getElem?_mapIdx,
    List.getElem?_eq_getElem hk, List.getD_eq_getElem?_getD, List.getElem?_eq_getElem hk]
  simp only [Option.map_some, Option.getD_some, List.contains_iff_mem]
  rfl

/-- **Candidates are associated** with the directions of their rows, if all that is looked at
on the way is there. -/
theorem associate_eq_ok {ranks chosen : List Nat} (hrow : ∀ i ∈ chosen, i < m.size)
    (hrank : ∀ i ∈ chosen, i < ranks.length)
    (hindex : ∀ i ∈ chosen,
      (directions.find (e.normalize (m.row i))).index < directions.size) :
    associate e directions m chosen (ranks.map unassociated).toArray
      = .ok (table e directions m ranks chosen) := by
  have hlinks : chosen.mapM (linkOf e directions m) = .ok (chosen.map (link e directions m)) :=
    mapM_eq_ok fun i hi => linkOf_eq_ok (hrow i hi) (hindex i hi)
  have hzip : chosen.zip (chosen.map (link e directions m))
      = chosen.map fun i => (i, link e directions m i) := by
    rw [List.zip, List.zipWith_map_right, List.zipWith_self]
  have hsize : (ranks.map (unassociated (α := α))).toArray.size = ranks.length := by
    rw [List.size_toArray, List.length_map]
  have hplace : ∀ i ∈ chosen, i < (ranks.map (unassociated (α := α))).toArray.size :=
    fun i hi => hsize.symm ▸ hrank i hi
  obtain ⟨table', hloop, hsize', hget⟩ := foldlM_enter_eq_ok (link e directions m) hplace
  rw [associate, hlinks, ok_bind, hzip, hloop]
  refine congrArg Except.ok (eq_of_getD_eq (unassociated 0) ?_ fun k hk => ?_)
  · rw [hsize', hsize, table, List.size_toArray, List.length_mapIdx]
  · rw [hsize', hsize] at hk
    rw [hget _ k (hsize.symm ▸ hk), getD_table hk, getD_toArray, List.getD_eq_getElem?_getD,
      List.getElem?_map, List.getD_eq_getElem?_getD, List.getElem?_eq_getElem hk]
    rfl

/-! ## Niche counts -/

/-- Looking up what is there is reading it. -/
theorem readAt_eq_lookUp {table : Array (Association α)} {i : Nat} (hi : i < table.size) :
    readAt table i = .ok (lookUp table i) :=
  readAt_eq_getD hi _

/-- **Every member is counted in** for its direction. -/
theorem foldlM_countIn_eq_ok {table : Array (Association α)} {counts : Array Nat}
    {members : List Nat} (hmember : ∀ i ∈ members, i < table.size)
    (hdirection : ∀ i ∈ members, (lookUp table i).direction < counts.size) :
    ∃ counts', members.foldlM (countIn table) counts = .ok counts' ∧ counts'.size = counts.size
      ∧ ∀ d, counts'.getD d 0
          = counts.getD d 0 + members.countP fun i => (lookUp table i).direction = d := by
  induction members generalizing counts with
  | nil => exact ⟨counts, rfl, rfl, fun d => rfl⟩
  | cons i members ih =>
    have hi := hdirection i List.mem_cons_self
    obtain ⟨raised, hwrite, hsize, hget⟩ :=
      writeAt_eq_ok (counts.getD (lookUp table i).direction 0 + 1) hi
    obtain ⟨counts', hrest, hsize', hget'⟩ :=
      ih (fun k hk => hmember k (List.mem_cons_of_mem i hk))
        fun k hk => hsize.symm ▸ hdirection k (List.mem_cons_of_mem i hk)
    have hcount : countIn table counts i = .ok raised := by
      rw [countIn, readAt_eq_lookUp (hmember i List.mem_cons_self), ok_bind, readAt_eq_getD hi 0]
      exact hwrite
    refine ⟨counts', ?_, hsize'.trans hsize, fun d => ?_⟩
    · rw [List.foldlM_cons, hcount]
      exact hrest
    · rw [hget', hget, List.countP_cons]
      by_cases hd : d = (lookUp table i).direction
      · rw [if_pos hd, if_pos (decide_eq_true hd.symm), hd]
        omega
      · rw [if_neg hd, decide_eq_false (Ne.symm hd), if_neg Bool.false_ne_true]
        omega

/-- **The counts from zero are the niche counts**, if there is one for every direction of a
member. -/
theorem recount_eq_ok {table : Array (Association α)} {counts : Array Nat} {members : List Nat}
    (hmember : ∀ i ∈ members, i < table.size)
    (hdirection : ∀ i ∈ members, (lookUp table i).direction < counts.size) :
    recount table counts members = .ok (nicheCounts table counts.size members) := by
  have hsize : (counts.map fun _ => 0).size = counts.size := Array.size_map
  obtain ⟨counts', hloop, hsize', hget⟩ :=
    foldlM_countIn_eq_ok hmember fun i hi => hsize.symm ▸ hdirection i hi
  rw [recount, hloop]
  refine congrArg Except.ok (eq_of_getD_eq 0 ?_ fun d hd => ?_)
  · rw [hsize', hsize, size_nicheCounts]
  · rw [hsize', hsize] at hd
    have hzero : (counts.map fun _ => 0).getD d 0 = 0 := by
      rw [Array.getD_eq_getD_getElem?, Array.getElem?_map, Array.getElem?_eq_getElem hd]
      rfl
    rw [hget, hzero, Nat.zero_add, nicheCounts, getD_toArray, List.getD_eq_getElem?_getD,
      List.getElem?_map, List.getElem?_range hd]
    rfl

end Association

end ParetoSelection
