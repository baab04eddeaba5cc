import ParetoSelection.Proofs.ConeTree.Layout

/-!
# What a row of nodes has to be for a tree

A row of nodes is a tree over some points if the first node covers all of them, the two
parts of a node are further on in the row and divide its run between them, and nobody is
a part of two nodes. `IsTreeRow` says this without reference to any tree, so it can be
read off the row. `IsPathFrom` is a way down from a node to a leaf, and its length.

The nodes of a tree, laid out level by level, are such a row (`isTreeRow_layOut`). What
it takes is that the tree is split properly: a node is a leaf exactly if it has few
enough points, and every node has a point (`IsProper`). Built trees are, for any outcome
of the comparisons of distances, because a split with an empty side is replaced by a cut
in the middle.
-/

namespace ParetoSelection

variable {α : Type}

/-! ## Properly split trees -/

/-- **A node that is split exactly if it has too many points for a leaf**, with a point
in every leaf. -/
inductive ConeNode.IsProper : ConeNode α → Prop where
  /-- A leaf has a point, and not too many. -/
  | leaf (ball : Ball α) {points : List (List α)} (pos : 0 < points.length)
      (le : points.length ≤ ConeTree.maxLeafSize) : IsProper (.leaf ball points)
  /-- An inner node has more points than a leaf. -/
  | split (ball : Ball α) (size : Nat) {left right : ConeNode α} (hleft : left.IsProper)
      (hright : right.IsProper)
      (gt : ConeTree.maxLeafSize < left.points.length + right.points.length) :
      IsProper (.split ball size left right)

/-- Every node has a point. -/
theorem ConeNode.IsProper.length_pos {node : ConeNode α} (h : node.IsProper) :
    0 < node.points.length := by
  cases h with
  | leaf _ pos _ => exact pos
  | split _ _ _ _ gt =>
    rw [ConeNode.points, List.length_append]
    exact Nat.lt_of_le_of_lt (Nat.zero_le _) gt

/-- The parts of a properly split node are. -/
theorem ConeNode.IsProper.of_mem_parts {p c : Pending α} (h : p.node.IsProper)
    (hc : c ∈ p.parts) : c.node.IsProper := by
  obtain ⟨node, first, level⟩ := p
  cases h with
  | leaf => exact absurd hc List.not_mem_nil
  | split _ _ hleft hright =>
    obtain rfl | hc := List.mem_cons.1 hc
    · exact hleft
    · rw [List.mem_singleton.1 hc]
      exact hright

/-- **A built node is properly split**, however the distances compare. -/
theorem ConeTree.isProper_nodeOf [Scalar α] {points : List (List α)} (h : 0 < points.length) :
    (nodeOf points).IsProper := by
  fun_induction nodeOf points with
  | case1 points hle => exact .leaf _ h hle
  | case2 points hgt ihl ihr =>
    have htwo : 2 ≤ points.length := Nat.le_trans (by decide) (Nat.lt_of_not_le hgt)
    obtain ⟨hl, hr, hlen⟩ := Sides.length_ofPoints points htwo
    refine .split _ _ (ihl hl) (ihr hr) ?_
    rw [(points_nodeOf_perm _).length_eq, (points_nodeOf_perm _).length_eq, hlen]
    exact Nat.lt_of_not_le hgt

/-! ## Rows -/

/-- **A row of nodes that is a tree** over `size` points. -/
structure IsTreeRow (nodes : List (ArenaNode α)) (size : Nat) : Prop where
  /-- The first node covers all points. -/
  root : ∃ e : ArenaNode α, nodes[0]? = some e ∧ e.first = 0 ∧ e.last = size
  /-- An inner node has too many points for a leaf. Its two parts are further on; both
  have points, and one begins where the other one ends. -/
  inner : ∀ (i : Nat) (e : ArenaNode α) (left right : Nat), nodes[i]? = some e →
    e.children = some (left, right) → ConeTree.maxLeafSize < e.last - e.first ∧ i < left ∧ i < right
      ∧ ∃ l r : ArenaNode α, nodes[left]? = some l ∧ nodes[right]? = some r
          ∧ l.first = e.first ∧ l.first < l.last ∧ l.last = r.first
          ∧ r.first < r.last ∧ r.last = e.last
  /-- A leaf has a point, and not too many. -/
  leaf : ∀ e ∈ nodes, e.children = none →
    e.first < e.last ∧ e.last - e.first ≤ ConeTree.maxLeafSize
  /-- Every node but the first is a part of exactly one node. -/
  parent : ∀ j, 0 < j → j < nodes.length →
    (nodes.countP fun e => j ∈ childPlaces e.children) = 1
  /-- Exactly one leaf covers a position of a point, and none any other position. -/
  tiled : ∀ k, (nodes.countP fun e => e.children = none ∧ e.first ≤ k ∧ k < e.last)
    = if k < size then 1 else 0
  /-- There is one inner node fewer than leaves. -/
  length_add_one : nodes.length + 1 = 2 * nodes.countP fun e => e.children = none

/-- **A way down to a leaf**, from the node at a place, over so many edges. -/
inductive IsPathFrom (nodes : List (ArenaNode α)) : (place length : Nat) → Prop where
  /-- At a leaf it ends. -/
  | leaf {i : Nat} {e : ArenaNode α} (he : nodes[i]? = some e) (hleaf : e.children = none) :
      IsPathFrom nodes i 0
  /-- It goes on with one of the parts. -/
  | part {i j length : Nat} {e : ArenaNode α} (he : nodes[i]? = some e)
      (hj : j ∈ childPlaces e.children) (below : IsPathFrom nodes j length) :
      IsPathFrom nodes i (length + 1)

/-! ## Rows of trees -/

/-- The node in its row. -/
def Laid.toArenaNode (e : Laid α) : ArenaNode α :=
  ⟨e.first, e.last, e.level, e.node.ball, e.children⟩

/-- **The row of a tree**, level by level. -/
def ConeNode.row (node : ConeNode α) : List (ArenaNode α) :=
  (layOut [⟨node, 0, 0⟩] 1).map Laid.toArenaNode

namespace ConeNode

/-- A tree has one inner node fewer than leaves. -/
theorem nodeCount_add_one (node : ConeNode α) : node.nodeCount + 1 = 2 * node.leafCount := by
  induction node with
  | leaf => rfl
  | split _ _ left right ihl ihr =>
    rw [nodeCount, leafCount, Nat.mul_add, ← ihl, ← ihr]
    omega

/-- There are as many places as nodes. -/
theorem length_row (node : ConeNode α) : node.row.length = node.nodeCount := by
  rw [row, List.length_map, length_layOut, List.map_singleton, List.sum_singleton]

/-- What is at a place of the row. -/
theorem of_getElem?_row {node : ConeNode α} {i : Nat} {e : ArenaNode α}
    (he : node.row[i]? = some e) :
    ∃ laid, (layOut [⟨node, 0, 0⟩] 1)[i]? = some laid ∧ laid.toArenaNode = e := by
  rw [row, List.getElem?_map] at he
  exact Option.map_eq_some_iff.1 he

/-- **The parts of a node in its row**: where they are, and what they are. -/
theorem exists_parts_row {node : ConeNode α} {i : Nat} {e : Laid α}
    (he : (layOut [⟨node, 0, 0⟩] 1)[i]? = some e) :
    ∃ j, i < j ∧ e.children = e.childrenAt j
      ∧ ∀ n (hn : n < e.parts.length), ∃ part, (layOut [⟨node, 0, 0⟩] 1)[j + n]? = some part
          ∧ part.toPending = e.parts[n] := by
  obtain ⟨j, hij, hchildren, hparts⟩ := exists_parts_layOut (Nat.zero_add 1).symm he
  rw [Nat.zero_add] at hchildren
  refine ⟨j, hij, hchildren, fun n hn => ?_⟩
  exact Option.map_eq_some_iff.1 (hparts n hn)

/-- **An inner node in the row of a tree.** -/
theorem exists_of_children_eq_some {node : ConeNode α} {i left right : Nat} {e : Laid α}
    (he : (layOut [⟨node, 0, 0⟩] 1)[i]? = some e) (hchildren : e.children = some (left, right)) :
    i < left ∧ right = left + 1 ∧ ∃ l r : Laid α, (layOut [⟨node, 0, 0⟩] 1)[left]? = some l
      ∧ (layOut [⟨node, 0, 0⟩] 1)[right]? = some r ∧ e.parts = [l.toPending, r.toPending] := by
  obtain ⟨j, hij, hat, hparts⟩ := exists_parts_row he
  obtain ⟨⟨n, first, level⟩, children⟩ := e
  cases n with
  | leaf =>
    have hnone : children = none := hat
    cases hnone.symm.trans hchildren
  | split _ _ nl nr =>
    have hsome : children = some (j, j + 1) := hat
    obtain ⟨rfl, rfl⟩ := Prod.mk.inj (Option.some.inj (hsome.symm.trans hchildren))
    obtain ⟨l, hl, hl'⟩ := hparts 0 Nat.two_pos
    obtain ⟨r, hr, hr'⟩ := hparts 1 Nat.one_lt_two
    exact ⟨hij, rfl, l, r, hl, hr, by rw [hl', hr']; rfl⟩

/-- The first part of a node begins where the node does, the second where the first ends,
and it ends where the node does. -/
theorem bounds_of_parts_eq {p l r : Pending α} (h : p.parts = [l, r]) :
    l.first = p.first ∧ l.last = r.first ∧ r.last = p.last := by
  obtain ⟨node, first, level⟩ := p
  cases node with
  | leaf => cases h
  | split _ _ left right =>
    cases h
    refine ⟨rfl, rfl, ?_⟩
    show first + left.points.length + right.points.length
      = first + (left.points ++ right.points).length
    rw [List.length_append, Nat.add_assoc]

/-- An inner node of a properly split tree has too many points for a leaf. -/
theorem IsProper.lt_of_parts_eq {p l r : Pending α} (hp : p.node.IsProper)
    (h : p.parts = [l, r]) : ConeTree.maxLeafSize < p.node.points.length := by
  obtain ⟨node, first, level⟩ := p
  cases hp with
  | leaf => cases h
  | split _ _ _ _ gt =>
    show ConeTree.maxLeafSize < (_ ++ _ : List _).length
    rwa [List.length_append]

/-! ## The row of a properly split tree -/

/-- All nodes in the row of a properly split tree are properly split. -/
theorem IsProper.of_mem_layOut {node : ConeNode α} (h : node.IsProper) :
    ∀ e ∈ layOut [⟨node, 0, 0⟩] 1, e.node.IsProper :=
  forall_mem_layOut (P := fun p => p.node.IsProper) (fun _ hp _ hc => hp.of_mem_parts hc)
    (fun p hp => by rwa [List.mem_singleton.1 hp]) 1

/-- The leaves of the tree are the nodes in the row that have no parts. -/
theorem children_eq_none_iff {node : ConeNode α} {e : Laid α}
    (he : e ∈ layOut [⟨node, 0, 0⟩] 1) : e.children = none ↔ e.parts = [] := by
  obtain ⟨i, he⟩ := List.mem_iff_getElem?.1 he
  obtain ⟨j, -, hchildren, -⟩ := exists_parts_row he
  rw [hchildren]
  obtain ⟨⟨n, first, level⟩, children⟩ := e
  cases n with
  | leaf => exact iff_of_true rfl rfl
  | split => exact iff_of_false (fun h => by cases h) fun h => by cases h

/-- **Leaves are counted by shares**: what a tree shares out among its leaves is what they
have together. -/
theorem countP_row {node : ConeNode α} {p : Pending α → Prop} [DecidablePred p]
    {q : ArenaNode α → Prop} [DecidablePred q]
    (hq : ∀ e : Laid α, q e.toArenaNode ↔ p e.toPending) {total : Pending α → Nat}
    (h : ∀ c, total c = (if c.parts = [] ∧ p c then 1 else 0) + (c.parts.map total).sum) :
    (node.row.countP fun e => e.children = none ∧ q e) = total ⟨node, 0, 0⟩ := by
  have hsum := sum_layOut h [⟨node, 0, 0⟩] 1
  rw [List.map_singleton, List.sum_singleton] at hsum
  rw [row, List.countP_map, ← hsum, ← countP_eq_sum_map]
  refine List.countP_congr fun e he => ?_
  rw [decide_eq_true_iff]
  show decide (e.children = none ∧ q e.toArenaNode) = true ↔ _
  rw [decide_eq_true_iff, children_eq_none_iff he, hq]

/-- Two adjacent runs cover what their union covers, once. -/
theorem share_of_covers (k : Nat) (c : Pending α) :
    (if c.first ≤ k ∧ k < c.last then 1 else 0)
      = (if c.parts = [] ∧ c.first ≤ k ∧ k < c.last then 1 else 0)
        + (c.parts.map fun d => if d.first ≤ k ∧ k < d.last then 1 else 0).sum := by
  obtain ⟨node, first, level⟩ := c
  cases node with
  | leaf => simp [Pending.parts]
  | split ball size left right =>
    have hlast : first + (left.points ++ right.points).length
        = first + left.points.length + right.points.length := by
      rw [List.length_append, Nat.add_assoc]
    have hparts : (⟨.split ball size left right, first, level⟩ : Pending α).parts ≠ [] :=
      List.cons_ne_nil _ _
    simp only [hparts, false_and, if_false, Nat.zero_add]
    show (if first ≤ k ∧ k < first + (left.points ++ right.points).length then 1 else 0)
      = (if first ≤ k ∧ k < first + left.points.length then 1 else 0)
        + ((if first + left.points.length ≤ k
            ∧ k < first + left.points.length + right.points.length then 1 else 0) + 0)
    rw [hlast, Nat.add_zero]
    by_cases hl : first ≤ k ∧ k < first + left.points.length
    · rw [if_pos hl, if_pos (by omega), if_neg (by omega)]
    · by_cases hr : first + left.points.length ≤ k
          ∧ k < first + left.points.length + right.points.length
      · rw [if_neg hl, if_pos hr, if_pos (by omega)]
      · rw [if_neg hl, if_neg hr, if_neg (by omega)]

/-- **The nodes of a properly split tree, level by level, are a tree in a row.** -/
theorem IsProper.isTreeRow {node : ConeNode α} (h : node.IsProper) :
    IsTreeRow node.row node.points.length where
  root := by
    obtain ⟨e, he, hpending⟩ := exists_root_layOut node
    refine ⟨e.toArenaNode, by rw [row, List.getElem?_map, he, Option.map_some], ?_⟩
    show e.toPending.first = 0 ∧ e.toPending.last = _
    rw [hpending]
    exact ⟨rfl, Nat.zero_add _⟩
  inner i e left right he hchildren := by
    obtain ⟨laid, hlaid, rfl⟩ := of_getElem?_row he
    obtain ⟨hlt, rfl, l, r, hl, hr, hparts⟩ := exists_of_children_eq_some hlaid hchildren
    have hproper := h.of_mem_layOut
    have hpos {x : Laid α} {j : Nat} (hx : (layOut [⟨node, 0, 0⟩] 1)[j]? = some x) :
        x.first < x.last :=
      Nat.lt_add_of_pos_right (hproper x (List.mem_of_getElem? hx)).length_pos
    obtain ⟨hfirst, hadjacent, hlast⟩ := bounds_of_parts_eq hparts
    refine ⟨?_, hlt, Nat.lt_succ_of_lt hlt, l.toArenaNode, r.toArenaNode,
      by rw [row, List.getElem?_map, hl, Option.map_some],
      by rw [row, List.getElem?_map, hr, Option.map_some], hfirst, hpos hl, hadjacent, hpos hr,
      hlast⟩
    show ConeTree.maxLeafSize < laid.first + laid.node.points.length - laid.first
    rw [Nat.add_sub_cancel_left]
    exact (hproper laid (List.mem_of_getElem? hlaid)).lt_of_parts_eq hparts
  leaf e he hchildren := by
    obtain ⟨laid, hlaid, rfl⟩ := List.mem_map.1 he
    have hproper := h.of_mem_layOut laid hlaid
    have hleaf := (children_eq_none_iff hlaid).1 hchildren
    obtain ⟨⟨n, first, level⟩, children⟩ := laid
    cases hproper with
    | leaf ball hpos hle =>
      refine ⟨Nat.lt_add_of_pos_right hpos, ?_⟩
      show first + _ - first ≤ _
      rwa [Nat.add_sub_cancel_left]
    | split => cases hleaf
  parent j hj hlt := by
    have hflat : (layOut [⟨node, 0, 0⟩] 1).flatMap (fun e => childPlaces e.children)
        = List.range' 1 (0 + (layOut [⟨node, 0, 0⟩] 1).length - 1) :=
      flatMap_childPlaces_layOut (Nat.zero_add 1).symm
    rw [Nat.zero_add] at hflat
    have hnodup : ((layOut [⟨node, 0, 0⟩] 1).flatMap fun e => childPlaces e.children).Nodup := by
      rw [hflat]
      exact List.nodup_range'
    have hcount : ((layOut [⟨node, 0, 0⟩] 1).flatMap fun e => childPlaces e.children).count j
        = 1 := by
      refine List.count_eq_one_of_mem hnodup ?_
      rw [hflat, List.mem_range'_1]
      rw [row, List.length_map] at hlt
      omega
    rw [List.count_flatMap] at hcount
    refine Eq.trans ?_ hcount
    rw [row, List.countP_map]
    refine (countP_eq_sum_map (fun e : Laid α => j ∈ childPlaces e.children) _).trans ?_
    refine congrArg List.sum (List.map_congr_left fun e he => ?_)
    exact ((List.nodup_flatMap.1 hnodup).1 e he).count.symm
  tiled k := by
    refine (countP_row (p := fun c => c.first ≤ k ∧ k < c.last) (fun e => Iff.rfl)
      (share_of_covers k)).trans ?_
    simp [Pending.last]
  length_add_one := by
    have hshare (c : Pending α) : c.node.leafCount
        = (if c.parts = [] ∧ True then 1 else 0)
          + (c.parts.map fun d => d.node.leafCount).sum := by
      obtain ⟨n, first, level⟩ := c
      cases n with
      | leaf => rfl
      | split _ _ left right => simp [Pending.parts, leafCount]
    have hleaves : (node.row.countP fun e => e.children = none ∧ True) = node.leafCount :=
      countP_row (p := fun _ => True) (fun _ => Iff.rfl) hshare
    simp only [and_true] at hleaves
    rw [hleaves, length_row, nodeCount_add_one]

/-! ## Ways down -/

/-- **At the places that a node refers to** are its parts. -/
theorem exists_of_mem_childPlaces {node : ConeNode α} {i j : Nat} {e : Laid α}
    (he : (layOut [⟨node, 0, 0⟩] 1)[i]? = some e) (hj : j ∈ childPlaces e.children) :
    ∃ part : Laid α, (layOut [⟨node, 0, 0⟩] 1)[j]? = some part ∧ part.toPending ∈ e.parts := by
  obtain ⟨place, -, hchildren, hparts⟩ := exists_parts_row he
  rw [hchildren, childPlaces_childrenAt, List.mem_range'_1] at hj
  obtain ⟨part, hpart, heq⟩ := hparts (j - place) (by omega)
  rw [Nat.add_sub_cancel' hj.1] at hpart
  exact ⟨part, hpart, heq ▸ List.getElem_mem _⟩

/-- And all of them are at such places. -/
theorem exists_of_mem_parts {node : ConeNode α} {i : Nat} {e : Laid α}
    (he : (layOut [⟨node, 0, 0⟩] 1)[i]? = some e) {c : Pending α} (hc : c ∈ e.parts) :
    ∃ j part, j ∈ childPlaces e.children ∧ (layOut [⟨node, 0, 0⟩] 1)[j]? = some part
      ∧ part.toPending = c := by
  obtain ⟨place, -, hchildren, hparts⟩ := exists_parts_row he
  obtain ⟨n, hn, rfl⟩ := List.mem_iff_getElem.1 hc
  obtain ⟨part, hpart, heq⟩ := hparts n hn
  refine ⟨place + n, part, ?_, hpart, heq⟩
  rw [hchildren, childPlaces_childrenAt, List.mem_range'_1]
  omega

/-- A part is one level further down, and the way from there is shorter by one at least. -/
theorem level_and_depth_of_mem_parts {p c : Pending α} (hc : c ∈ p.parts) :
    c.level = p.level + 1 ∧ c.node.depth + 1 ≤ p.node.depth := by
  obtain ⟨node, first, level⟩ := p
  cases node with
  | leaf => exact absurd hc List.not_mem_nil
  | split ball size left right =>
    have hdepth : (split ball size left right).depth = 1 + max left.depth right.depth := rfl
    obtain rfl | hc := List.mem_cons.1 hc
    · exact ⟨rfl, by dsimp only; omega⟩
    · rw [List.mem_singleton.1 hc]
      exact ⟨rfl, by dsimp only; omega⟩

/-- From one of the parts it is shorter by exactly one. -/
theorem depth_eq_zero_or_exists (p : Pending α) :
    p.parts = [] ∧ p.node.depth = 0 ∨ ∃ c ∈ p.parts, c.node.depth + 1 = p.node.depth := by
  obtain ⟨node, first, level⟩ := p
  cases node with
  | leaf => exact .inl ⟨rfl, rfl⟩
  | split ball size left right =>
    have hdepth : (split ball size left right).depth = 1 + max left.depth right.depth := rfl
    obtain hle | hle := Nat.le_total left.depth right.depth
    · exact .inr ⟨_, List.mem_cons_of_mem _ (List.mem_singleton_self _), by dsimp only; omega⟩
    · exact .inr ⟨_, List.mem_cons_self, by dsimp only; omega⟩

/-- **There is a way down from every node that is as long as the node is deep.** -/
theorem isPathFrom_depth {node : ConeNode α} {i : Nat} {e : Laid α}
    (he : (layOut [⟨node, 0, 0⟩] 1)[i]? = some e) : IsPathFrom node.row i e.node.depth := by
  have hrow : node.row[i]? = some e.toArenaNode := by
    rw [row, List.getElem?_map, he, Option.map_some]
  induction hd : e.node.depth generalizing i e with
  | zero =>
    obtain ⟨hleaf, -⟩ | ⟨c, -, hc⟩ := depth_eq_zero_or_exists e.toPending
    · exact .leaf hrow ((children_eq_none_iff (List.mem_of_getElem? he)).2 hleaf)
    · rw [hd] at hc
      exact absurd hc (Nat.succ_ne_zero _)
  | succ d ih =>
    obtain ⟨-, hzero⟩ | ⟨c, hmem, hc⟩ := depth_eq_zero_or_exists e.toPending
    · rw [hd] at hzero
      exact absurd hzero (Nat.succ_ne_zero _)
    · obtain ⟨j, part, hj, hpart, rfl⟩ := exists_of_mem_parts he hmem
      rw [hd] at hc
      refine .part hrow hj (ih hpart ?_ (Nat.succ.inj hc))
      rw [row, List.getElem?_map, hpart, Option.map_some]

/-- **No way down is longer**, and it ends as much further down as it is long. -/
theorem le_depth_of_isPathFrom {node : ConeNode α} {i length : Nat}
    (h : IsPathFrom node.row i length) {e : Laid α}
    (he : (layOut [⟨node, 0, 0⟩] 1)[i]? = some e) :
    length ≤ e.node.depth ∧ ∃ last ∈ node.row, last.level = e.level + length := by
  induction h generalizing e with
  | leaf hrow _ =>
    refine ⟨Nat.zero_le _, e.toArenaNode, ?_, rfl⟩
    exact List.mem_map_of_mem (List.mem_of_getElem? he)
  | @part i j length e' hrow hj _ ih =>
    obtain rfl : e.toArenaNode = e' := by
      rw [row, List.getElem?_map, he, Option.map_some] at hrow
      exact Option.some.inj hrow
    obtain ⟨part, hpart, hmem⟩ := exists_of_mem_childPlaces he hj
    obtain ⟨hle, last, hlast, hlevel⟩ := ih hpart
    obtain ⟨hdown, hshorter⟩ := level_and_depth_of_mem_parts hmem
    refine ⟨Nat.le_trans (Nat.succ_le_succ hle) hshorter, last, hlast, ?_⟩
    rw [hlevel, hdown]
    omega

/-- **The depth of a tree is the length of the longest way down** from the first node of
its row. -/
theorem isPathFrom_root_depth (node : ConeNode α) :
    IsPathFrom node.row 0 node.depth
      ∧ ∀ length, IsPathFrom node.row 0 length → length ≤ node.depth := by
  obtain ⟨e, he, hroot⟩ := exists_root_layOut node
  have hnode : e.node = node := congrArg Pending.node hroot
  refine ⟨?_, fun length h => ?_⟩
  · rw [← hnode]
    exact hnode ▸ isPathFrom_depth he
  · rw [← hnode]
    exact (le_depth_of_isPathFrom h he).1

/-- A bound on a running maximum is one on the start and on everything that comes. -/
theorem foldl_max_le_iff {xs : List Nat} {start bound : Nat} :
    xs.foldl max start ≤ bound ↔ start ≤ bound ∧ ∀ x ∈ xs, x ≤ bound := by
  induction xs generalizing start with
  | nil => simp
  | cons x xs ih => rw [List.foldl_cons, ih, Nat.max_le, and_assoc, List.forall_mem_cons]

/-- **It is also the lowest level of a node.** -/
theorem foldl_max_level_row (node : ConeNode α) :
    (node.row.map ArenaNode.level).foldl max 0 = node.depth := by
  refine Nat.le_antisymm (foldl_max_le_iff.2 ⟨Nat.zero_le _, fun level hlevel => ?_⟩) ?_
  · obtain ⟨e, he, rfl⟩ := List.mem_map.1 hlevel
    obtain ⟨laid, hlaid, rfl⟩ := List.mem_map.1 he
    have hbelow : laid.level + laid.node.depth ≤ node.depth :=
      forall_mem_layOut (P := fun p => p.level + p.node.depth ≤ node.depth)
        (fun p hp c hc => by
          obtain ⟨hdown, hshorter⟩ := level_and_depth_of_mem_parts hc
          omega)
        (fun p hp => by
          rw [List.mem_singleton.1 hp]
          exact Nat.le_of_eq (Nat.zero_add _)) 1 laid hlaid
    exact Nat.le_trans (Nat.le_add_right _ _) hbelow
  · obtain ⟨e, he, hroot⟩ := exists_root_layOut node
    obtain ⟨-, last, hlast, hlevel⟩ :=
      le_depth_of_isPathFrom node.isPathFrom_root_depth.1 he
    have hzero : e.level = 0 := congrArg Pending.level hroot
    rw [hzero, Nat.zero_add] at hlevel
    rw [← hlevel]
    exact (foldl_max_le_iff.1 (Nat.le_refl _)).2 _ (List.mem_map_of_mem hlast)

end ConeNode

end ParetoSelection
