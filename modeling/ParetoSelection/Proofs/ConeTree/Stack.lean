import ParetoSelection.ConeTree.Stack
import ParetoSelection.Proofs.Access
import ParetoSelection.Proofs.ConeTree.Scan

/-!
# The stack holds what the recursion has put off

The search of a node as `ConeNode.search` goes about it is the search of one part after the
search of the other. On the stack the part whose turn is later waits below the one whose turn
is first, so that all that a search of a node does happens while the stack below it stays as
it is (`Searches.of_search`). The induction is on the node, and what is below it on the stack
is arbitrary: for one part it includes the other one.

In the rows that building a tree leaves behind, the search therefore comes to an end, every
reference is to something that is there, and what is found is what the recursion finds
(`finds_scan_iff`).
-/

namespace ParetoSelection

open Scalar

variable {α : Type} [Scalar α] {query : List α} {queryNorm : α}

namespace ConeArena

/-- **A search finds one thing at most.** -/
theorem Searches.unique {a : ConeArena α} {stack : List Nat} {best found found' : Hit α}
    (h : a.Searches query queryNorm stack best found)
    (h' : a.Searches query queryNorm stack best found') : found = found' := by
  induction h with
  | done =>
    cases h'
    rfl
  | next hturn _ ih =>
    cases h' with
    | next hturn' hrest' =>
      obtain ⟨rfl, rfl⟩ := Prod.mk.inj (Except.ok.inj (hturn.symm.trans hturn'))
      exact ih hrest'

/-- Looking at the points of a run, one position after the other, is looking at its points. -/
theorem foldlM_lookAt {a : ConeArena α} {points : List (List α)} {first : Nat} (best : Hit α)
    (h : ∀ k (hk : k < points.length), a.points[first + k]? = some points[k]) :
    (List.range' first points.length).foldlM (a.lookAt query) best
      = .ok (best.scanFrom query first points) := by
  induction points generalizing first best with
  | nil => rfl
  | cons p points ih =>
    have hp : a.lookAt query best first = .ok (best.improve first (dot query p)) := by
      have hget : a.points.toArray[first]? = some p :=
        List.getElem?_toArray.trans (h 0 (Nat.succ_pos _))
      rw [lookAt, readAt, hget]
      rfl
    rw [List.length_cons, List.range'_succ, List.foldlM_cons, hp]
    refine (ih (best.improve first (dot query p)) fun k hk => ?_).trans ?_
    · rw [Nat.succ_add_eq_add_succ]
      exact h (k + 1) (Nat.succ_lt_succ hk)
    · rfl

section Row

variable {root : ConeNode α}

omit [Scalar α] in
/-- A node is found at its place in the row. -/
theorem nodeAt_row {i : Nat} {e : Laid α} (he : (layOut [⟨root, 0, 0⟩] 1)[i]? = some e) :
    nodeAt ⟨root.points, root.row⟩ i = .ok e.toArenaNode := by
  have hget : root.row.toArray[i]? = some e.toArenaNode := by
    rw [List.getElem?_toArray, ConeNode.row, List.getElem?_map, he]
    rfl
  rw [nodeAt, readAt, hget]

omit [Scalar α] in
/-- The points of a node are found at its positions. -/
theorem getElem?_points_of_mem_layOut {e : Laid α} (he : e ∈ layOut [⟨root, 0, 0⟩] 1) {k : Nat}
    (hk : k < e.node.points.length) : root.points[e.first + k]? = some e.node.points[k] := by
  obtain ⟨hcovers, hlast⟩ := forall_mem_layOut
    (P := fun p => p.node.CoversFrom (root.points.getD · []) p.first
      ∧ p.last ≤ root.points.length)
    (fun p hp c hc => ⟨Pending.coversFrom_of_mem_parts hp.1 hc,
      (Pending.last_le_of_mem_parts hc).trans hp.2⟩)
    (fun p hp => by
      rw [List.mem_singleton.1 hp]
      exact ⟨root.coversFrom_getD, Nat.le_of_eq (Nat.zero_add _)⟩) 1 e he
  have hlt : e.first + k < root.points.length :=
    Nat.lt_of_lt_of_le (Nat.add_lt_add_left hk e.first) hlast
  have hget : root.points.getD (e.first + k) [] = e.node.points[k] := hcovers k hk
  rw [List.getElem?_eq_getElem hlt, ← hget, List.getD_eq_getElem _ [] hlt]

/-- The turn of a node that cannot have anything better. -/
theorem turn_of_lt {i : Nat} {e : Laid α} (he : (layOut [⟨root, 0, 0⟩] 1)[i]? = some e)
    {best : Hit α} (hlt : e.node.ball.productBound query queryNorm < best.product) :
    turn ⟨root.points, root.row⟩ query queryNorm i best = .ok ([], best) := by
  rw [turn, nodeAt_row he]
  exact if_pos hlt

/-- **The search of a node happens on top of the stack.** -/
theorem Searches.of_search {node : ConeNode α} (hsized : node.IsSized) {i first level : Nat}
    {children : Option (Nat × Nat)}
    (he : (layOut [⟨root, 0, 0⟩] 1)[i]? = some ⟨⟨node, first, level⟩, children⟩)
    {stack : List Nat} {best found : Hit α}
    (h : Searches ⟨root.points, root.row⟩ query queryNorm stack
      (node.search query queryNorm first best) found) :
    Searches ⟨root.points, root.row⟩ query queryNorm (i :: stack) best found := by
  induction hsized generalizing i first level children stack best with
  | leaf ball points =>
    obtain ⟨j, -, hchildren, -⟩ := ConeNode.exists_parts_row he
    obtain rfl : children = none := hchildren
    rw [ConeNode.search] at h
    by_cases hlt : ball.productBound query queryNorm < best.product
    · rw [if_pos hlt] at h
      exact .next (turn_of_lt he hlt) h
    · rw [if_neg hlt] at h
      have hlook : (List.range' first points.length).foldlM
          (lookAt ⟨root.points, root.row⟩ query) best = .ok (best.scanFrom query first points) :=
        foldlM_lookAt best fun k hk => getElem?_points_of_mem_layOut (List.mem_of_getElem? he) hk
      have hturn : turn ⟨root.points, root.row⟩ query queryNorm i best
          = .ok ([], best.scanFrom query first points) := by
        rw [turn, nodeAt_row he]
        refine (if_neg hlt).trans ?_
        show ((List.range' first (first + points.length - first)).foldlM _ best >>= _) = _
        rw [Nat.add_sub_cancel_left, hlook]
        rfl
      exact .next hturn h
  | @split ball size left right hleft hright hsize ihl ihr =>
    obtain ⟨j, -, hchildren, hparts⟩ := ConeNode.exists_parts_row he
    obtain rfl : children = some (j, j + 1) := hchildren
    obtain ⟨⟨l, lchildren⟩, hl, hl'⟩ := hparts 0 Nat.two_pos
    obtain ⟨⟨r, rchildren⟩, hr, hr'⟩ := hparts 1 Nat.one_lt_two
    obtain rfl : l = ⟨left, first, level + 1⟩ := hl'
    obtain rfl : r = ⟨right, first + left.points.length, level + 1⟩ := hr'
    rw [ConeNode.search, hleft.size_eq] at h
    by_cases hlt : ball.productBound query queryNorm < best.product
    · rw [if_pos hlt] at h
      exact .next (turn_of_lt he hlt) h
    rw [if_neg hlt] at h
    have hturn : turn ⟨root.points, root.row⟩ query queryNorm i best
        = if left.ball.productBound query queryNorm < right.ball.productBound query queryNorm
          then .ok ([j + 1, j], best) else .ok ([j, j + 1], best) := by
      rw [turn, nodeAt_row he]
      refine (if_neg hlt).trans ?_
      show (nodeAt ⟨root.points, root.row⟩ (j + 0) >>= _) = _
      rw [nodeAt_row hl, ok_bind, nodeAt_row hr]
      rfl
    by_cases hbounds : left.ball.productBound query queryNorm
        < right.ball.productBound query queryNorm
    · rw [if_pos hbounds] at h hturn
      exact .next hturn (ihr hr (ihl hl h))
    · rw [if_neg hbounds] at h hturn
      exact .next hturn (ihl hl (ihr hr h))

/-- **The search of the rows of a tree** comes to an end, and finds what the search of the tree
finds. -/
theorem finds_row_iff {t : ConeTree α} (ht : t.IsSearchable) (query : List α) {found : Hit α} :
    Finds ⟨t.root.points, t.root.row⟩ query found ↔ found = t.find query := by
  obtain ⟨⟨root, children⟩, hroot, rfl⟩ := exists_root_layOut t.root
  have hfirst : firstHit ⟨t.root.points, t.root.row⟩ query = .ok (t.firstHit query) := by
    have hpos := ht.size_pos
    rw [t.size_eq] at hpos
    have hget : t.root.points.toArray[0]? = some (t.point 0) := by
      rw [ConeTree.point, t.points_eq, Array.getD_eq_getD_getElem?, List.getElem?_toArray,
        List.getElem?_eq_getElem hpos, Option.getD_some]
    rw [firstHit, readAt, hget]
    rfl
  have hsearch : Searches ⟨t.root.points, t.root.row⟩ query (norm query) [0] (t.firstHit query)
      (t.find query) := .of_search ht.isSized hroot .done
  constructor
  · rintro ⟨first, hfirst', hfound⟩
    obtain rfl := Except.ok.inj (hfirst'.symm.trans hfirst)
    exact hfound.unique hsearch
  · rintro rfl
    exact ⟨_, hfirst, hsearch⟩

end Row

end ConeArena

/-- **What is found in the rows that building leaves behind** is what the tree finds. -/
theorem ConeTree.finds_scan_iff {points : List (List α)} {t : ConeTree α}
    (h : ConeTree.ofPoints points = .ok t) (query : List α) {found : Hit α} :
    (ConeArena.scan points t.nodeCount).Finds query found ↔ found = t.find query := by
  have hsearchable := ConeTree.isSearchable_ofPoints h
  obtain ⟨_, -, rfl⟩ := exists_of_map_eq_ok h
  have hscan := ConeArena.scan_eq points
  show (ConeArena.scan points (ConeTree.nodeOf points).nodeCount).Finds query found ↔ _
  rw [hscan]
  exact ConeArena.finds_row_iff hsearchable query

end ParetoSelection
