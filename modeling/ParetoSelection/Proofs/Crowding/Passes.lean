import Mathlib.Data.List.GetD
import Mathlib.Data.List.Nodup
import ParetoSelection.Crowding.Passes
import ParetoSelection.Proofs.Access
import ParetoSelection.Proofs.Fitness

/-!
# Every member is passed over once

A pass visits all members, each of them once, so that what it makes of a distance is a
matter of the place at which the member is visited: the distance is replaced at the first
and the last place, and added to at all others if the range is positive
(`pass_eq_ok`). Over all passes the distances of two members never meet. The distance of a
member is therefore followed through the passes by itself (`getElem?_ofRows`), and the array
ends with the distances that are computed member by member (`crowdingPasses_eq`), or with
the failure to read a value that is not there.
-/

namespace ParetoSelection

open Scalar

variable {α : Type} [Scalar α]

namespace Crowding

/-! ## The order of a pass -/

/-- The members are visited in some order. -/
theorem ascendingPositions_perm (values : Array α) :
    (ascendingPositions values).Perm (List.range values.size) :=
  stableSort_perm _ _

/-- Nobody is visited twice. -/
theorem nodup_ascendingPositions (values : Array α) : (ascendingPositions values).Nodup :=
  (ascendingPositions_perm values).nodup_iff.2 List.nodup_range

/-- There are as many places as members. -/
theorem length_ascendingPositions (values : List α) :
    (ascendingPositions values.toArray).length = values.length :=
  (ascendingPositions_perm values.toArray).length_eq.trans List.length_range

/-- All members are visited. -/
theorem mem_ascendingPositions {values : Array α} {p : Nat} :
    p ∈ ascendingPositions values ↔ p < values.size :=
  (ascendingPositions_perm values).mem_iff.trans List.mem_range

/-- The values of the members in ascending order. -/
def sortedValues (values : List α) : Array α :=
  ((ascendingPositions values.toArray).map fun p => values.toArray.getD p 0).toArray

/-- **The place at which a member is visited.** -/
def placeOf (values : List α) (p : Nat) : Nat :=
  (ascendingPositions values.toArray).idxOf p

/-! ## One pass -/

section Visits

variable (values : Array α) (range : α)

/-- What visiting makes of a member's distance: whoever is visited between two others has its
part of the range added. -/
def visit (visited : List Nat) (p : Nat) (distance : α) : α :=
  let place := visited.idxOf p
  if 0 < place ∧ place + 1 < visited.length then
    distance + (values.getD (visited.getD (place + 1) 0) 0
      - values.getD (visited.getD (place - 1) 0) 0) / range
  else distance

variable {visited : List Nat} {p q : Nat} (distance : α)

/-- Of two members none is between two others. -/
theorem visit_of_length_le (h : visited.length ≤ 2) :
    visit values range visited p distance = distance :=
  if_neg fun hplace => by omega

/-- Who is not visited is not between two others. -/
theorem visit_of_not_mem (h : p ∉ visited) :
    visit values range visited p distance = distance := by
  refine if_neg fun hplace => ?_
  rw [List.idxOf_eq_length h] at hplace
  omega

/-- Nor is the first who is visited. -/
theorem visit_first : visit values range (p :: visited) p distance = distance := by
  refine if_neg fun hplace => ?_
  rw [List.idxOf_cons_self] at hplace
  omega

/-- The second of three or more is between the first and the third. -/
theorem visit_second (h : q ≠ p) (r : Nat) :
    visit values range (p :: q :: r :: visited) q distance
      = distance + (values.getD r 0 - values.getD p 0) / range := by
  have hplace : (p :: q :: r :: visited).idxOf q = 1 := by
    rw [List.idxOf_cons_ne _ h.symm, List.idxOf_cons_self]
  unfold visit
  rw [hplace]
  exact if_pos ⟨Nat.one_pos, by simp⟩

/-- All others have the same neighbours without the first. -/
theorem visit_later {x : Nat} (hp : x ≠ p) (hq : x ≠ q) :
    visit values range (p :: q :: visited) x distance
      = visit values range (q :: visited) x distance := by
  unfold visit
  rw [List.idxOf_cons_ne _ hp.symm, List.idxOf_cons_ne _ hq.symm, List.length_cons]
  simp only [Nat.succ_eq_add_one, Nat.add_sub_cancel, List.getD_cons_succ, Nat.zero_lt_succ,
    true_and, Nat.add_lt_add_iff_right]

end Visits

/-- **Every member's distance is visited once**, as long as all members that are visited have
a value and a distance. -/
theorem addParts_eq_ok {values distances : Array α} {visited : List Nat} (range : α)
    (hnodup : visited.Nodup) (hvalues : ∀ p ∈ visited, p < values.size)
    (hdistances : ∀ p ∈ visited, p < distances.size) :
    ∃ ds, addParts values range visited distances = .ok ds ∧ ds.size = distances.size
      ∧ ∀ p, ds.getD p 0 = visit values range visited p (distances.getD p 0) := by
  induction visited generalizing distances with
  | nil => exact ⟨distances, rfl, rfl, fun x => (visit_of_length_le _ _ _ (by simp)).symm⟩
  | cons p rest ih =>
    match rest with
    | [] => exact ⟨distances, rfl, rfl, fun x => (visit_of_length_le _ _ _ (by simp)).symm⟩
    | [q] => exact ⟨distances, rfl, rfl, fun x => (visit_of_length_le _ _ _ (by simp)).symm⟩
    | q :: r :: visited =>
      obtain ⟨hp, hrest⟩ := List.nodup_cons.1 hnodup
      have hq : q ∈ p :: q :: r :: visited := by simp
      have hr : r ∈ p :: q :: r :: visited := by simp
      have hne : q ≠ p := fun h => hp (h ▸ List.mem_cons_self)
      obtain ⟨written, hwrite, hsize, hget⟩ := writeAt_eq_ok
        (distances.getD q 0 + (values.getD r 0 - values.getD p 0) / range) (hdistances q hq)
      have hwritten : ∀ x ∈ q :: r :: visited, x < written.size := fun x hx =>
        hsize.symm ▸ hdistances x (List.mem_cons_of_mem p hx)
      obtain ⟨ds, hadd, hsizeAll, hgetAll⟩ :=
        ih hrest (fun x hx => hvalues x (List.mem_cons_of_mem p hx)) hwritten
      refine ⟨ds, ?_, hsizeAll.trans hsize, fun x => ?_⟩
      · rw [addParts, readAt_eq_getD (hvalues p List.mem_cons_self) 0, ok_bind,
          readAt_eq_getD (hvalues r hr) 0, ok_bind, readAt_eq_getD (hdistances q hq) 0, ok_bind,
          hwrite]
        exact hadd
      · rw [hgetAll, hget]
        by_cases hxp : x = p
        · rw [hxp, visit_of_not_mem _ _ _ hp, visit_first, if_neg hne.symm]
        · by_cases hxq : x = q
          · rw [hxq, visit_first, visit_second _ _ _ hne, if_pos rfl]
          · rw [visit_later _ _ _ hxp hxq, if_neg hxq]

section Pass

variable {values : List α} {p place : Nat}

/-- The member who is visited at a place. -/
def visitedAt (values : List α) (place : Nat) : Nat :=
  (ascendingPositions values.toArray).getD place 0

/-- There is a member at every place. -/
theorem visitedAt_lt (h : place < values.length) : visitedAt values place < values.length := by
  have hplace : place < (ascendingPositions values.toArray).length := by
    rwa [length_ascendingPositions]
  rw [visitedAt, List.getD_eq_getElem _ _ hplace]
  exact mem_ascendingPositions.1 (List.getElem_mem hplace)

/-- Who is visited at a place is read off the order. -/
theorem readAt_ascendingPositions (h : place < values.length) :
    readAt (ascendingPositions values.toArray).toArray place = .ok (visitedAt values place) := by
  rw [readAt_eq_getD (by rwa [List.size_toArray, length_ascendingPositions]) 0, getD_toArray]
  rfl

/-- Every member has a place. -/
theorem placeOf_lt (h : p < values.length) : placeOf values p < values.length := by
  have hmem : p ∈ ascendingPositions values.toArray := mem_ascendingPositions.2 h
  have hlt := List.idxOf_lt_length_of_mem hmem
  rwa [length_ascendingPositions] at hlt

/-- **A place is a member's place exactly if the member is visited there.** -/
theorem placeOf_eq_iff (h : p < values.length) (hplace : place < values.length) :
    placeOf values p = place ↔ p = visitedAt values place := by
  have hmem : p ∈ ascendingPositions values.toArray := mem_ascendingPositions.2 h
  have hlength : place < (ascendingPositions values.toArray).length := by
    rwa [length_ascendingPositions]
  rw [visitedAt, List.getD_eq_getElem _ _ hlength]
  constructor
  · rintro rfl
    exact (List.getElem_idxOf (List.idxOf_lt_length_of_mem hmem)).symm
  · rintro rfl
    exact (nodup_ascendingPositions _).idxOf_getElem place hlength

/-- There are as many values in ascending order as there are values. -/
theorem size_sortedValues (values : List α) : (sortedValues values).size = values.length := by
  rw [sortedValues, List.size_toArray, List.length_map, length_ascendingPositions]

/-- The value at a place is that of the member who is visited there. -/
theorem getD_sortedValues (h : place < values.length) :
    (sortedValues values).getD place 0 = values.toArray.getD (visitedAt values place) 0 := by
  have hplace : place < (ascendingPositions values.toArray).length := by
    rwa [length_ascendingPositions]
  rw [sortedValues, getD_toArray, List.getD_eq_getElem _ _ (by rwa [List.length_map]),
    List.getElem_map, visitedAt, List.getD_eq_getElem _ _ hplace]

/-- The place of the member who is visited at a place. -/
theorem placeOf_visitedAt (h : place < values.length) :
    placeOf values (visitedAt values place) = place :=
  (placeOf_eq_iff (visitedAt_lt h) h).2 rfl

/-- The member who is visited at the place of a member. -/
theorem visitedAt_placeOf (h : p < values.length) : visitedAt values (placeOf values p) = p :=
  ((placeOf_eq_iff h (placeOf_lt h)).1 rfl).symm

/-- **A member's value is the one at its place.** -/
theorem getD_sortedValues_placeOf (h : p < values.length) :
    (sortedValues values).getD (placeOf values p) 0 = values.toArray.getD p 0 := by
  rw [getD_sortedValues (placeOf_lt h), visitedAt_placeOf h]

/-- **The first and the last member are marked**, and nobody else. -/
theorem markEnds_eq_ok {distances : Array α} (hpos : 0 < values.length)
    (hsize : distances.size = values.length) :
    ∃ ds, markEnds (ascendingPositions values.toArray) distances = .ok ds
      ∧ ds.size = distances.size
      ∧ ∀ p < values.length, ds.getD p 0
          = if placeOf values p = 0 ∨ placeOf values p = values.length - 1 then infinity
            else distances.getD p 0 := by
  have hbefore : values.length - 1 < values.length := Nat.sub_lt hpos Nat.one_pos
  have hfirst : visitedAt values 0 < distances.size :=
    Nat.lt_of_lt_of_eq (visitedAt_lt hpos) hsize.symm
  obtain ⟨one, hone, hsizeOne, hgetOne⟩ := writeAt_eq_ok infinity hfirst
  have hlast : visitedAt values (values.length - 1) < one.size :=
    Nat.lt_of_lt_of_eq (visitedAt_lt hbefore) (hsizeOne.trans hsize).symm
  obtain ⟨two, htwo, hsizeTwo, hgetTwo⟩ := writeAt_eq_ok infinity hlast
  refine ⟨two, ?_, hsizeTwo.trans hsizeOne, fun p hp => ?_⟩
  · unfold markEnds
    rw [readAt_ascendingPositions hpos, length_ascendingPositions, ok_bind, hone, ok_bind,
      readAt_ascendingPositions hbefore]
    exact htwo
  · simp only [hgetTwo, hgetOne, placeOf_eq_iff hp hpos, placeOf_eq_iff hp hbefore]
    split_ifs <;> grind

/-- The range goes from the first to the last value. -/
theorem rangeOver_eq_ok (hpos : 0 < values.length) :
    rangeOver values.toArray (ascendingPositions values.toArray)
      = .ok ((sortedValues values).getD (values.length - 1) 0
          - (sortedValues values).getD 0 0) := by
  have hbefore : values.length - 1 < values.length := Nat.sub_lt hpos Nat.one_pos
  have hread {place : Nat} (hplace : place < values.length) :
      readAt values.toArray (visitedAt values place)
        = .ok ((sortedValues values).getD place 0) := by
    rw [getD_sortedValues hplace]
    exact readAt_eq_getD (visitedAt_lt hplace) 0
  unfold rangeOver
  rw [readAt_ascendingPositions hpos, length_ascendingPositions, ok_bind, hread hpos, ok_bind,
    readAt_ascendingPositions hbefore, ok_bind, hread hbefore]
  rfl

/-- In ascending order all members but the first and the last are visited between two others,
who have the next values. -/
theorem visit_ascending (h : p < values.length) (range distance : α) :
    visit values.toArray range (ascendingPositions values.toArray) p distance
      = if placeOf values p = 0 ∨ placeOf values p = values.length - 1 then distance
        else distance + ((sortedValues values).getD (placeOf values p + 1) 0
          - (sortedValues values).getD (placeOf values p - 1) 0) / range := by
  have hlt := placeOf_lt h
  show (if 0 < placeOf values p
      ∧ placeOf values p + 1 < (ascendingPositions values.toArray).length then _ else _) = _
  rw [length_ascendingPositions]
  by_cases hends : placeOf values p = 0 ∨ placeOf values p = values.length - 1
  · rw [if_pos hends, if_neg (by omega)]
  · rw [if_neg hends, if_pos (by omega), getD_sortedValues (by omega),
      getD_sortedValues (by omega)]
    rfl

/-- What an objective makes of a distance, by the place of the member. -/
theorem extend_sortedValues (place : Nat) (distance : α) :
    extend (sortedValues values) place distance
      = if place = 0 ∨ place = values.length - 1 then infinity
        else if 0 < (sortedValues values).getD (values.length - 1) 0
            - (sortedValues values).getD 0 0 then
          distance + ((sortedValues values).getD (place + 1) 0
            - (sortedValues values).getD (place - 1) 0)
              / ((sortedValues values).getD (values.length - 1) 0
                - (sortedValues values).getD 0 0)
        else distance := by
  unfold extend
  rw [size_sortedValues]
  simp only [Bool.or_eq_true, decide_eq_true_eq]

/-- An objective is taken into account once it has been for every member. -/
theorem eq_addObjective {distances ds : Array α} (hsize : ds.size = distances.size)
    (h : ∀ p < distances.size, ds.getD p 0
      = extend (sortedValues values) (placeOf values p) (distances.getD p 0)) :
    ds = (addObjective distances.toList values).toArray := by
  have hlength : (addObjective distances.toList values).length = distances.size :=
    List.length_mapIdx.trans Array.length_toList
  refine Array.ext (hsize.trans hlength.symm) fun p hp hp' => ?_
  have hp'' : p < distances.size := hsize ▸ hp
  have hget := h p hp''
  rw [Array.getD_eq_getD_getElem?, Array.getElem?_eq_getElem hp, Option.getD_some,
    Array.getD_eq_getD_getElem?, Array.getElem?_eq_getElem hp'', Option.getD_some] at hget
  rw [hget]
  simp only [addObjective, List.getElem_toArray, List.getElem_mapIdx, Array.getElem_toList]
  rfl

/-- **A pass takes an objective into account**: at the first and the last place the distance is
replaced, and the others are visited if the range is positive. -/
theorem pass_eq_ok {distances : Array α} (hpos : 0 < values.length)
    (hsize : distances.size = values.length) :
    pass distances values.toArray = .ok (addObjective distances.toList values).toArray := by
  have hlt {p : Nat} (hp : p ∈ ascendingPositions values.toArray) : p < values.length :=
    mem_ascendingPositions.1 hp
  obtain ⟨marked, hmark, hsizeMarked, hgetMarked⟩ := markEnds_eq_ok hpos hsize
  unfold pass
  dsimp only
  rw [hmark]
  show (rangeOver values.toArray _ >>= _) = _
  rw [rangeOver_eq_ok hpos]
  show (if _ then _ else _) = _
  split
  · rename_i hrange
    obtain ⟨ds, hadd, hsizeAdd, hgetAdd⟩ := addParts_eq_ok _
      (nodup_ascendingPositions values.toArray) (fun p hp => hlt hp)
      fun p hp => Nat.lt_of_lt_of_eq (hlt hp) (hsizeMarked.trans hsize).symm
    rw [hadd]
    refine congrArg Except.ok (eq_addObjective (hsizeAdd.trans hsizeMarked) fun p hp => ?_)
    have hp : p < values.length := hsize ▸ hp
    rw [hgetAdd, visit_ascending hp, hgetMarked p hp, extend_sortedValues, if_pos hrange]
    split_ifs <;> rfl
  · rename_i hrange
    refine congrArg Except.ok (eq_addObjective hsizeMarked fun p hp => ?_)
    rw [hgetMarked p (hsize ▸ hp), extend_sortedValues, if_neg hrange]

end Pass

/-! ## All passes -/

/-- An objective of some rows. -/
def objective (rows : List (List α)) (k : Nat) : List α :=
  rows.map fun row => row.getD k 0

/-- A member is followed through the passes by itself. -/
theorem getElem?_foldl_mapIdx {β ι : Type} (f : ι → Nat → β → β) (ks : List ι) (xs : List β)
    (p : Nat) : (ks.foldl (fun xs k => xs.mapIdx (f k)) xs)[p]?
      = xs[p]?.map fun x => ks.foldl (fun x k => f k p x) x := by
  induction ks generalizing xs with
  | nil => exact Option.map_id'.symm
  | cons k ks ih =>
    rw [List.foldl_cons, ih, List.getElem?_mapIdx, Option.map_map]
    rfl

/-- Of at most two members all are infinitely isolated. -/
theorem getElem?_ofRows_of_length_le {rows : List (List α)} (hlen : rows.length ≤ 2)
    (objectives : Nat) {p : Nat} (hp : p < rows.length) :
    (ofRows objectives rows)[p]? = some infinity := by
  rw [ofRows, if_pos hlen, List.getElem?_replicate, if_pos hp]

/-- **The crowding distance of a member**, objective by objective: of three or more members
every one starts at zero, and an objective changes the distance according to the place of the
member. -/
theorem getElem?_ofRows {rows : List (List α)} (hlen : 2 < rows.length) (objectives : Nat)
    {p : Nat} (hp : p < rows.length) :
    (ofRows objectives rows)[p]? = some ((List.range objectives).foldl
      (fun d k => extend (sortedValues (objective rows k)) (placeOf (objective rows k) p) d)
      0) := by
  unfold ofRows
  rw [if_neg (Nat.not_le_of_lt hlen)]
  refine (getElem?_foldl_mapIdx (fun k p d => extend (sortedValues (objective rows k))
    (placeOf (objective rows k) p) d) _ _ p).trans ?_
  rw [List.getElem?_replicate, if_pos hp]
  rfl

/-- Objectives are taken into account for as many members as before. -/
theorem length_foldl_addObjective (values : Nat → List α) (ks : List Nat) (distances : List α) :
    (ks.foldl (fun distances k => addObjective distances (values k)) distances).length
      = distances.length := by
  induction ks generalizing distances with
  | nil => rfl
  | cons k ks ih => exact (ih _).trans List.length_mapIdx

/-- There is a crowding distance for every row. -/
theorem length_ofRows (objectives : Nat) (rows : List (List α)) :
    (ofRows objectives rows).length = rows.length := by
  unfold ofRows
  split
  · exact List.length_replicate
  · exact (length_foldl_addObjective _ _ _).trans List.length_replicate

end Crowding

namespace FitnessMatrix

variable {m : FitnessMatrix α} {front : List Nat}

/-- There is a crowding distance for every member of a front. -/
theorem length_crowdingOf (m : FitnessMatrix α) (front : List Nat) :
    (m.crowdingOf front).length = front.length :=
  (Crowding.length_ofRows _ _).trans (List.length_map _)

/-- **Crowding distances need no value that is not there** if all members have the objectives
of the first. -/
theorem checkedCrowdingOf_eq_ok
    (h : ∀ i ∈ front, i < m.size ∧ m.frontWidth front ≤ (m.row i).length) :
    m.checkedCrowdingOf front = .ok (m.crowdingOf front) := by
  refine if_pos (Bool.or_eq_true_iff.2 (Or.inr (Bool.and_eq_true_iff.2 ⟨?_, ?_⟩)))
  · cases front with
    | nil => rfl
    | cons first rest => exact decide_eq_true (h first List.mem_cons_self).1
  · rw [Bool.or_eq_true, List.all_eq_true]
    exact Or.inr fun i hi => decide_eq_true (h i hi).2

omit [Scalar α] in
/-- The first member has as many objectives as all rows have. -/
theorem frontWidth_eq {dim : Nat} (hrows : ∀ row ∈ m, row.length = dim)
    (hfront : ∀ i ∈ front, i < m.size) (hne : front ≠ []) : m.frontWidth front = dim := by
  obtain ⟨first, rest, rfl⟩ := List.exists_cons_of_ne_nil hne
  exact hrows _ (row_mem (hfront first List.mem_cons_self))

/-- No value is missing if all rows are equally long. -/
theorem checkedCrowdingOf_eq_ok_of_rows {dim : Nat} (hrows : ∀ row ∈ m, row.length = dim)
    (hfront : ∀ i ∈ front, i < m.size) :
    m.checkedCrowdingOf front = .ok (m.crowdingOf front) := by
  refine checkedCrowdingOf_eq_ok fun i hi => ⟨hfront i hi, Nat.le_of_eq ?_⟩
  rw [frontWidth_eq hrows hfront (List.ne_nil_of_mem hi), hrows _ (row_mem (hfront i hi))]

/-- **An objective is read** if all rows have it. -/
theorem column_eq (m : FitnessMatrix α) (k : Nat) (candidates : List Nat) :
    m.column k candidates
      = if candidates.all fun i => k < (m.row i).length then
          .ok (Crowding.objective (candidates.map m.row) k)
        else .error .outOfRange := by
  induction candidates with
  | nil => rfl
  | cons i candidates ih =>
    rw [column, List.all_cons]
    by_cases hi : i < m.size
    · rw [readAt_eq_getD hi []]
      show (readAt (m.row i).toArray k >>= _) = _
      by_cases hk : k < (m.row i).length
      · rw [readAt_eq_getD (by rwa [List.size_toArray]) 0, decide_eq_true hk, Bool.true_and]
        show (m.column k candidates >>= _) = _
        rw [ih]
        split
        · rw [getD_toArray]
          rfl
        · rfl
      · rw [readAt_eq_error (by rw [List.size_toArray]; exact Nat.le_of_not_lt hk),
          decide_eq_false hk]
        rfl
    · have hrow : (m.row i).length = 0 := by
        rw [row, Array.getD_eq_getD_getElem?, Array.getElem?_eq_none (Nat.le_of_not_lt hi)]
        rfl
      rw [readAt_eq_error (Nat.le_of_not_lt hi), hrow, decide_eq_false (Nat.not_lt_zero k)]
      rfl

/-- **The passes over the first objectives**: they can be made if all rows have them. -/
theorem foldlM_pass_eq (hne : front ≠ []) (n : Nat) :
    ((List.range n).foldlM
        (fun distances k => do Crowding.pass distances (← m.column k front).toArray)
        (Array.replicate front.length 0) : Except Failure (Array α))
      = if n = 0 ∨ (front.all fun i => n ≤ (m.row i).length) then
          .ok ((List.range n).foldl
            (fun distances k => Crowding.addObjective distances
              (Crowding.objective (front.map m.row) k))
            (List.replicate front.length 0)).toArray
        else .error .outOfRange := by
  induction n with
  | zero => exact congrArg Except.ok (List.toArray_replicate _ _).symm
  | succ n ih =>
    rw [List.range_succ, List.foldlM_append, ih, List.foldl_concat]
    have hrows : (Crowding.objective (front.map m.row) n).length = front.length := by
      rw [Crowding.objective, List.length_map, List.length_map]
    by_cases hall : (front.all fun i => n + 1 ≤ (m.row i).length) = true
    · have hbefore : (front.all fun i => n ≤ (m.row i).length) = true := by
        rw [List.all_eq_true] at hall ⊢
        exact fun i hi => decide_eq_true (Nat.le_of_succ_le (of_decide_eq_true (hall i hi)))
      rw [if_pos (Or.inr hbefore), if_pos (Or.inr hall)]
      show ((m.column n front >>= _) >>= _) = _
      rw [(column_eq m n front).trans (if_pos hall)]
      refine (bind_pure _).trans ?_
      refine Crowding.pass_eq_ok (by rw [hrows]; exact List.length_pos_iff.2 hne) ?_
      rw [hrows, List.size_toArray, Crowding.length_foldl_addObjective, List.length_replicate]
    · rw [if_neg (not_or.2 ⟨Nat.succ_ne_zero n, hall⟩)]
      split
      · show ((m.column n front >>= _) >>= _) = _
        rw [(column_eq m n front).trans (if_neg hall)]
        rfl
      · rfl

/-- **The passes compute the crowding distances**, or fail where these need a value that is
not there. -/
theorem crowdingPasses_eq (m : FitnessMatrix α) (front : List Nat) :
    m.crowdingPasses front = (m.checkedCrowdingOf front).map List.toArray := by
  unfold crowdingPasses checkedCrowdingOf hasCrowdingOf
  by_cases hlen : front.length ≤ 2
  · rw [if_pos hlen, decide_eq_true hlen, Bool.true_or, if_pos rfl, crowdingOf, Crowding.ofRows,
      List.length_map, if_pos hlen]
    exact congrArg Except.ok (List.toArray_replicate _ _).symm
  rw [if_neg hlen, decide_eq_false hlen, Bool.false_or]
  obtain ⟨first, rest, rfl⟩ := List.exists_cons_of_length_pos (by omega : 0 < front.length)
  show (readAt m first >>= _) = _
  by_cases hfirst : first < m.size
  · rw [readAt_eq_getD hfirst []]
    show (List.range (m.row first).length).foldlM _ _ = _
    rw [foldlM_pass_eq (List.cons_ne_nil first rest), List.head?_cons, Option.all_some,
      decide_eq_true hfirst, Bool.true_and, frontWidth, crowdingOf, frontWidth, Crowding.ofRows,
      List.length_map, if_neg hlen]
    simp only [Bool.or_eq_true, decide_eq_true_eq]
    split
    · rfl
    · rfl
  · rw [readAt_eq_error (Nat.le_of_not_lt hfirst), List.head?_cons, Option.all_some,
      decide_eq_false hfirst]
    rfl

end FitnessMatrix

end ParetoSelection
