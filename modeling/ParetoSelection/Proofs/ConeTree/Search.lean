import ParetoSelection.ConeTree.Arena
import ParetoSelection.ConeTree.Search

/-!
# A search finds a point of the tree

The search of a tree returns a position, and the position has to be one of a
point: it becomes an index into the niche counts. An inner node keeps the
number of its points, and the search of its right part starts at the position
that the number of the left part gives. `IsSized` says of a node that these
numbers are right. Every built node is (`isSized_nodeOf`), and on such a node
the search looks at the positions that the node covers and at no other
(`index_search`).
-/

namespace ParetoSelection

variable {α : Type} [Scalar α]

/-- **A node whose parts know how many points they cover.** -/
inductive ConeNode.IsSized : ConeNode α → Prop where
  /-- A leaf covers the points it holds. -/
  | leaf (ball : Ball α) (points : List (List α)) : IsSized (.leaf ball points)
  /-- An inner node covers the points of its two parts. -/
  | split (ball : Ball α) {size : Nat} {left right : ConeNode α} (hleft : left.IsSized)
      (hright : right.IsSized) (size_eq : size = left.points.length + right.points.length) :
      IsSized (.split ball size left right)

omit [Scalar α] in
/-- The number is the number of points. -/
theorem ConeNode.IsSized.size_eq {node : ConeNode α} (h : node.IsSized) :
    node.size = node.points.length := by
  cases h with
  | leaf => rfl
  | split ball _ _ hsize => exact hsize.trans List.length_append.symm

/-- A built node covers the points it is built from, and every node below it
knows how many it covers. -/
theorem ConeTree.isSized_nodeOf (points : List (List α)) :
    (ConeTree.nodeOf points).IsSized ∧ (ConeTree.nodeOf points).points.length = points.length := by
  fun_induction ConeTree.nodeOf points with
  | case1 points h => exact ⟨.leaf _ points, rfl⟩
  | case2 points h ihl ihr =>
    obtain ⟨hl, hllen⟩ := ihl
    obtain ⟨hr, hrlen⟩ := ihr
    have htwo : 2 ≤ points.length := Nat.le_trans (by decide) (Nat.lt_of_not_le h)
    have hlen := (Sides.length_ofPoints points htwo).2.2
    refine ⟨.split _ hl hr (by rw [hllen, hrlen, hlen]), ?_⟩
    rw [ConeNode.points, List.length_append, hllen, hrlen, hlen]

/-- Looking at some points finds one of them, or keeps what was found
before. -/
theorem Hit.index_scanFrom (query : List α) (first : Nat) (points : List (List α)) (best : Hit α) :
    (best.scanFrom query first points).index = best.index
      ∨ first ≤ (best.scanFrom query first points).index
        ∧ (best.scanFrom query first points).index < first + points.length := by
  unfold Hit.scanFrom
  induction points generalizing first best with
  | nil => exact .inl rfl
  | cons p points ih =>
    rw [List.zipIdx_cons, List.foldl_cons, List.length_cons]
    have himprove : (best.improve first (dot query p)).index = best.index
        ∨ (best.improve first (dot query p)).index = first := by
      unfold Hit.improve
      split
      · exact .inr rfl
      · exact .inl rfl
    rcases ih (first + 1) (best.improve first (dot query p)) with hkept | ⟨hle, hlt⟩
    · rw [hkept]
      rcases himprove with h | h
      · exact .inl h
      · exact .inr ⟨Nat.le_of_eq h.symm, by omega⟩
    · refine .inr ⟨Nat.le_of_succ_le hle, ?_⟩
      rw [Nat.add_comm points.length 1, ← Nat.add_assoc]
      exact hlt

/-- **The search of a node finds a position that the node covers**, or keeps
what was found before. -/
theorem ConeNode.IsSized.index_search {node : ConeNode α} (h : node.IsSized) (query : List α)
    (queryNorm : α) (first : Nat) (best : Hit α) :
    (node.search query queryNorm first best).index = best.index
      ∨ first ≤ (node.search query queryNorm first best).index
        ∧ (node.search query queryNorm first best).index < first + node.points.length := by
  induction h generalizing first best with
  | leaf ball points =>
    unfold ConeNode.search
    split
    · exact .inl rfl
    · exact Hit.index_scanFrom query first points best
  | @split ball size left right hleft hright hsize ihl ihr =>
    rw [ConeNode.points, List.length_append]
    unfold ConeNode.search
    rw [hleft.size_eq]
    split
    · exact .inl rfl
    · split
      · rcases ihl first (right.search query queryNorm (first + left.points.length) best)
          with hkept | ⟨hle, hlt⟩
        · rw [hkept]
          rcases ihr (first + left.points.length) best with h | ⟨hle, hlt⟩
          · exact .inl h
          · exact .inr ⟨by omega, by omega⟩
        · exact .inr ⟨hle, by omega⟩
      · rcases ihr (first + left.points.length) (left.search query queryNorm first best)
          with hkept | ⟨hle, hlt⟩
        · rw [hkept]
          rcases ihl first best with h | ⟨hle, hlt⟩
          · exact .inl h
          · exact .inr ⟨hle, by omega⟩
        · exact .inr ⟨by omega, by omega⟩

/-- **A tree to search in**: it has a point, and its nodes know how many they
cover. -/
structure ConeTree.IsSearchable (t : ConeTree α) : Prop where
  /-- Every node knows how many points it covers. -/
  isSized : t.root.IsSized
  /-- There is a point. -/
  size_pos : 0 < t.size

omit [Scalar α] in
/-- The tree has as many points as there are below its root. -/
theorem ConeTree.size_eq (t : ConeTree α) : t.size = t.root.points.length := by
  rw [ConeTree.size, t.points_eq, List.size_toArray]

omit [Scalar α] in
/-- The point at a position is one of the points. -/
theorem ConeTree.point_mem {t : ConeTree α} {i : Nat} (hi : i < t.size) :
    t.point i ∈ t.points := by
  rw [ConeTree.point, Array.getD_eq_getD_getElem?, Array.getElem?_eq_getElem hi, Option.getD_some]
  exact Array.getElem_mem hi

/-- **What a search finds is a point of the tree.** -/
theorem ConeTree.IsSearchable.index_find_lt {t : ConeTree α} (h : t.IsSearchable)
    (query : List α) : (t.find query).index < t.size := by
  unfold ConeTree.find
  rcases h.isSized.index_search query (norm query) 0 (t.firstHit query) with hkept | ⟨-, hlt⟩
  · rw [hkept]
    exact h.size_pos
  · rw [t.size_eq]
    rwa [Nat.zero_add] at hlt

/-- **A tree that is built can be searched.** -/
theorem ConeTree.isSearchable_ofPoints {points : List (List α)} {t : ConeTree α}
    (h : ConeTree.ofPoints points = .ok t) : t.IsSearchable := by
  unfold ConeTree.ofPoints at h
  cases hcount : FitnessMatrix.objectiveCount points.toArray with
  | error e =>
    rw [hcount] at h
    cases h
  | ok n =>
    rw [hcount] at h
    obtain rfl : { root := ConeTree.nodeOf points } = t := Except.ok.inj h
    obtain ⟨hsized, hlen⟩ := ConeTree.isSized_nodeOf points
    refine ⟨hsized, ?_⟩
    rw [ConeTree.size_eq, hlen]
    refine List.length_pos_iff.2 fun hnil => ?_
    rw [hnil] at hcount
    cases hcount

end ParetoSelection
