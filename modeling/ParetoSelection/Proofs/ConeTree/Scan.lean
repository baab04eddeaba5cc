import ParetoSelection.Proofs.ConeTree.BestMatch
import ParetoSelection.Proofs.ConeTree.Structure

/-!
# The scan builds the tree

The scan visits nodes in the order in which they came into the row, and while it does
the row grows and points change places. It comes to an end all the same, and what it
leaves behind is the tree of `ConeTree.nodeOf`, laid out level by level, over the points
in the order of its leaves (`scan_eq`).

The nodes that have not been visited are a queue. Each of them stands for a tree, the
one over the points that are at its positions at the moment (`IsScanned.built`), and a
pass cannot change what the others stand for, because their positions are apart from
those that it rearranges (`IsScanned.apart`). A position that none of them covers has
got its point for good (`IsScanned.settled`). As the queue is laid out, so the row will
be: every pass moves one node from the queue to what is done, and after as many passes as
the tree has nodes the queue is empty.
-/

namespace ParetoSelection

variable {α : Type}

/-! ## Runs of points -/

/-- **The points at some positions.** -/
def pointsAt (points : List (List α)) (first n : Nat) : List (List α) :=
  (List.range n).map fun k => points.getD (first + k) []

/-- There are as many as positions. -/
theorem length_pointsAt (points : List (List α)) (first n : Nat) :
    (pointsAt points first n).length = n := by
  rw [pointsAt, List.length_map, List.length_range]

/-- A run of points is the points at its positions. -/
theorem take_drop_eq_pointsAt {points : List (List α)} {first n : Nat}
    (h : first + n ≤ points.length) : (points.drop first).take n = pointsAt points first n := by
  unfold pointsAt
  refine List.ext_getElem ?_ fun k hk hk' => ?_
  · rw [List.length_take, List.length_drop, List.length_map, List.length_range]
    omega
  · rw [List.length_map, List.length_range] at hk'
    rw [List.getElem_take, List.getElem_drop, List.getElem_map, List.getElem_range,
      List.getD_eq_getElem _ _ (by omega)]

/-- All points are those at all positions. -/
theorem pointsAt_zero (points : List (List α)) : pointsAt points 0 points.length = points := by
  rw [← take_drop_eq_pointsAt (Nat.le_of_eq (Nat.zero_add _)), List.drop_zero, List.take_length]

/-- Points at some positions depend on nothing but what is there. -/
theorem pointsAt_congr {points points' : List (List α)} {first first' n : Nat}
    (h : ∀ k < n, points.getD (first + k) [] = points'.getD (first' + k) []) :
    pointsAt points first n = pointsAt points' first' n :=
  List.map_congr_left fun k hk => h k (List.mem_range.1 hk)

/-- **What is where after a run has been replaced.** -/
theorem getD_overwrite {points run : List (List α)} {first : Nat}
    (h : first + run.length ≤ points.length) (k : Nat) :
    (overwrite points first run).getD k []
      = if first ≤ k ∧ k < first + run.length then run.getD (k - first) []
        else points.getD k [] := by
  have htake : (points.take first).length = first := by
    rw [List.length_take]
    omega
  unfold overwrite
  simp only [List.getD_eq_getElem?_getD, List.append_assoc]
  by_cases hbefore : k < first
  · rw [if_neg fun hk => absurd hk.1 (Nat.not_le_of_lt hbefore),
      List.getElem?_append_left (by rwa [htake]), List.getElem?_take_of_lt hbefore]
  · rw [List.getElem?_append_right (by rw [htake]; omega), htake]
    by_cases hin : k < first + run.length
    · rw [if_pos ⟨Nat.le_of_not_lt hbefore, hin⟩, List.getElem?_append_left (by omega)]
    · rw [if_neg fun hk => hin hk.2, List.getElem?_append_right (by omega), List.getElem?_drop]
      congr 2
      omega

/-- Nothing is lost when a run is replaced. -/
theorem length_overwrite {points run : List (List α)} {first : Nat}
    (h : first + run.length ≤ points.length) :
    (overwrite points first run).length = points.length := by
  unfold overwrite
  rw [List.length_append, List.length_append, List.length_take, List.length_drop]
  omega

/-- Replacing a run by itself changes nothing. -/
theorem overwrite_pointsAt {points : List (List α)} {first n : Nat}
    (h : first + n ≤ points.length) :
    overwrite points first (pointsAt points first n) = points := by
  rw [← take_drop_eq_pointsAt h]
  unfold overwrite
  rw [List.length_take, List.length_drop, Nat.min_eq_left (by omega), List.append_assoc,
    ← List.drop_drop, List.take_append_drop, List.take_append_drop]

/-! ## One pass -/

/-- A node of the queue in its row. -/
def Pending.fresh [Scalar α] (p : Pending α) : ArenaNode α :=
  .fresh p.first p.last p.level

variable [Scalar α]

/-- **The two sides of a split** are what is on either side of the cut, which is within the
run. -/
theorem ConeTree.Sides.cut_ofPoints {run : List (List α)}
    (h : ¬ run.length ≤ ConeTree.maxLeafSize) :
    (ConeTree.Sides.ofPoints run).cut < run.length
      ∧ (ConeTree.Sides.ofPoints run).left
        = pointsAt (ConeTree.Sides.ofPoints run).run.toList 0 (ConeTree.Sides.ofPoints run).cut
      ∧ (ConeTree.Sides.ofPoints run).right
        = pointsAt (ConeTree.Sides.ofPoints run).run.toList (ConeTree.Sides.ofPoints run).cut
            (run.length - (ConeTree.Sides.ofPoints run).cut)
      ∧ (ConeTree.Sides.ofPoints run).run.toList.length = run.length := by
  have htwo : 2 ≤ run.length := Nat.le_trans (by decide) (Nat.lt_of_not_le h)
  obtain ⟨-, hright, hsum⟩ := ConeTree.Sides.length_ofPoints run htwo
  generalize ConeTree.Sides.ofPoints run = sides at hright hsum ⊢
  unfold ConeTree.Sides.left ConeTree.Sides.right at *
  rw [List.length_drop] at hright
  rw [List.length_take, List.length_drop] at hsum
  have hcut : sides.cut < run.length := by omega
  have hsize : sides.run.toList.length = run.length := by omega
  refine ⟨hcut, ?_, ?_, hsize⟩
  · rw [← take_drop_eq_pointsAt (by omega), List.drop_zero]
  · rw [← take_drop_eq_pointsAt (by omega), ← hsize, ← List.length_drop, List.take_length]

omit [Scalar α] in
/-- A node that covers a position which none of its parts covers has no parts. -/
theorem Pending.parts_eq_nil {p : Pending α} {k : Nat} (hin : p.first ≤ k ∧ k < p.last)
    (h : ∀ c ∈ p.parts, ¬ (c.first ≤ k ∧ k < c.last)) : p.parts = [] := by
  obtain ⟨node, first, level⟩ := p
  cases node with
  | leaf => rfl
  | split ball size left right =>
    have hleft := h ⟨left, first, level + 1⟩ List.mem_cons_self
    have hright := h ⟨right, first + left.points.length, level + 1⟩
      (List.mem_cons_of_mem _ (List.mem_singleton_self _))
    have hlast : Pending.last ⟨.split ball size left right, first, level⟩
        = first + left.points.length + right.points.length := by
      rw [Pending.last, ConeNode.points, List.length_append, Nat.add_assoc]
    rw [hlast] at hin
    unfold Pending.last at hleft hright
    dsimp only at hin hleft hright
    omega

omit [Scalar α] in
/-- A tree covers the places of its own points. -/
theorem ConeNode.coversFrom_getD (node : ConeNode α) :
    node.CoversFrom (node.points.getD · []) 0 := by
  intro k hk
  dsimp only
  rw [Nat.zero_add, List.getD_eq_getElem]

omit [Scalar α] in
/-- The parts of a node cover their places if the node does. -/
theorem Pending.coversFrom_of_mem_parts {point : Nat → List α} {p c : Pending α}
    (h : p.node.CoversFrom point p.first) (hc : c ∈ p.parts) :
    c.node.CoversFrom point c.first := by
  obtain ⟨node, first, level⟩ := p
  cases node with
  | leaf => exact absurd hc List.not_mem_nil
  | split =>
    obtain ⟨hleft, hright⟩ := h.parts
    obtain rfl | hc := List.mem_cons.1 hc
    · exact hleft
    · rw [List.mem_singleton.1 hc]
      exact hright

omit [Scalar α] in
/-- The parts of a node end where it ends, or before. -/
theorem Pending.last_le_of_mem_parts {p c : Pending α} (hc : c ∈ p.parts) : c.last ≤ p.last := by
  obtain ⟨node, first, level⟩ := p
  cases node with
  | leaf => exact absurd hc List.not_mem_nil
  | split ball size left right =>
    have hlast : Pending.last ⟨.split ball size left right, first, level⟩
        = first + left.points.length + right.points.length := by
      rw [Pending.last, ConeNode.points, List.length_append, Nat.add_assoc]
    rw [hlast]
    obtain rfl | hc := List.mem_cons.1 hc
    · exact Nat.le_add_right _ _
    · rw [List.mem_singleton.1 hc]
      exact Nat.le_refl _

namespace ConeArena

/-- **Half-way through a scan**: what has been done, and the queue. -/
structure IsScanned (root : ConeNode α) (passes : Nat) (a : ConeArena α)
    (queue : List (Pending α)) : Prop where
  /-- As many nodes have been laid down as there were passes; with the queue laid out
  behind them they are the row of the tree. -/
  nodes_eq : ∃ done : List (Laid α), done.length = passes
    ∧ a.nodes = done.map Laid.toArenaNode ++ queue.map Pending.fresh
    ∧ done ++ layOut queue a.nodes.length = layOut [⟨root, 0, 0⟩] 1
  /-- No point is lost. -/
  length_eq : a.points.length = root.points.length
  /-- A node of the queue lies within the points. -/
  fits : ∀ p ∈ queue, p.last ≤ a.points.length
  /-- It is what is built over the points that are at its positions now. -/
  built : ∀ p ∈ queue,
    p.node = ConeTree.nodeOf (pointsAt a.points p.first p.node.points.length)
  /-- Its points are those that the tree has there in the end. -/
  covers : ∀ p ∈ queue, p.node.CoversFrom (root.points.getD · []) p.first
  /-- No two nodes of the queue share a position. -/
  apart : queue.Pairwise fun p c => p.last ≤ c.first ∨ c.last ≤ p.first
  /-- All other positions have the points that the tree has there in the end. -/
  settled : ∀ k, (∀ p ∈ queue, ¬ (p.first ≤ k ∧ k < p.last)) →
    a.points.getD k [] = root.points.getD k []

/-- **What is built over a run**: a leaf, or a split into what is built over its sides. -/
theorem nodeOf_cases {p : Pending α} {run : List (List α)} (h : p.node = ConeTree.nodeOf run) :
    (run.length ≤ ConeTree.maxLeafSize ∧ p.node.points = run ∧ p.parts = []
        ∧ ∀ next, p.childrenAt next = none)
      ∨ (¬ run.length ≤ ConeTree.maxLeafSize
        ∧ p.parts
          = [⟨ConeTree.nodeOf (ConeTree.Sides.ofPoints run).left, p.first, p.level + 1⟩,
            ⟨ConeTree.nodeOf (ConeTree.Sides.ofPoints run).right,
              p.first + (ConeTree.Sides.ofPoints run).left.length, p.level + 1⟩]
        ∧ ∀ next, p.childrenAt next = some (next, next + 1)) := by
  obtain ⟨node, first, level⟩ := p
  obtain rfl : node = _ := h
  rw [ConeTree.nodeOf]
  split
  · rename_i hle
    exact .inl ⟨hle, rfl, rfl, fun _ => rfl⟩
  · rename_i hgt
    refine .inr ⟨hgt, ?_, fun _ => rfl⟩
    rw [Pending.parts, (ConeTree.points_nodeOf_perm _).length_eq]

/-- The ball of a built node is the one around its run. -/
theorem ball_nodeOf (run : List (List α)) : (ConeTree.nodeOf run).ball = Ball.around run := by
  rw [ConeTree.nodeOf]
  split
  · rfl
  · rfl

/-- **What a pass does**: the first node of the queue is laid down, its parts join the
queue, and its run is replaced by one over which the parts are built. -/
theorem IsScanned.exists_visit {root : ConeNode α} {passes : Nat} {a : ConeArena α}
    {p : Pending α} {rest : List (Pending α)} (h : a.IsScanned root passes (p :: rest))
    {done : List (Laid α)} (hdone : done.length = passes)
    (hnodes : a.nodes = done.map Laid.toArenaNode ++ (p :: rest).map Pending.fresh) :
    ∃ run : List (List α), run.length = p.node.points.length
      ∧ a.visit passes = ⟨overwrite a.points p.first run,
          (done ++ [Laid.mk p (p.childrenAt a.nodes.length)]).map Laid.toArenaNode
            ++ (rest ++ p.parts).map Pending.fresh⟩
      ∧ (∀ c ∈ p.parts, p.first ≤ c.first ∧ c.last ≤ p.last
        ∧ c.node = ConeTree.nodeOf (pointsAt run (c.first - p.first) c.node.points.length))
      ∧ (p.parts = [] → run = p.node.points) := by
  have hfits : p.first + p.node.points.length ≤ a.points.length := h.fits p List.mem_cons_self
  have hbuilt := h.built p List.mem_cons_self
  generalize hrun : pointsAt a.points p.first p.node.points.length = run at hbuilt
  have hlen : run.length = p.node.points.length := by rw [← hrun, length_pointsAt]
  have hvisited : a.nodes[passes]? = some p.fresh := by
    rw [hnodes, List.getElem?_append_right (by rw [List.length_map, hdone]), List.length_map, hdone,
      Nat.sub_self]
    rfl
  have hset (n : ArenaNode α) : a.nodes.set passes n
      = done.map Laid.toArenaNode ++ n :: rest.map Pending.fresh := by
    rw [hnodes, List.set_append_right _ _ (by rw [List.length_map, hdone]), List.length_map, hdone,
      Nat.sub_self, List.map_cons, List.set_cons_zero]
  have hspan : p.fresh.last - p.fresh.first = run.length := by
    rw [hlen]
    exact Nat.add_sub_cancel_left _ _
  have hpoints : a.run p.fresh = run := by
    unfold ConeArena.run
    rw [hspan, hlen, ← hrun]
    exact take_drop_eq_pointsAt hfits
  have hball : p.node.ball = Ball.around run := by rw [hbuilt, ball_nodeOf]
  have hlaid (n : Laid α) : (done ++ [n]).map Laid.toArenaNode
      = done.map Laid.toArenaNode ++ [n.toArenaNode] := by
    rw [List.map_append, List.map_singleton]
  unfold visit
  rw [hvisited]
  dsimp only
  rw [hspan, hpoints, ← hball, hset, hset, hlaid, List.map_append]
  obtain ⟨hle, hleaf, hparts, hchildren⟩ | ⟨hgt, hparts, hchildren⟩ := nodeOf_cases hbuilt
  · refine ⟨run, hlen, ?_, fun c hc => ?_, fun _ => hleaf.symm⟩
    · rw [if_pos hle, hchildren, hparts, ← hrun, overwrite_pointsAt hfits, List.map_nil,
        List.append_nil, ← List.append_cons]
      rfl
    · rw [hparts] at hc
      exact absurd hc List.not_mem_nil
  · generalize hsides : ConeTree.Sides.ofPoints run = sides at hparts
    obtain ⟨hcut, hleft, hright, hsize⟩ := ConeTree.Sides.cut_ofPoints hgt
    rw [hsides] at hcut hleft hright hsize
    have hleftLen : (ConeTree.nodeOf sides.left).points.length = sides.cut := by
      rw [(ConeTree.points_nodeOf_perm _).length_eq, hleft, length_pointsAt]
    have hrightLen : (ConeTree.nodeOf sides.right).points.length = run.length - sides.cut := by
      rw [(ConeTree.points_nodeOf_perm _).length_eq, hright, length_pointsAt]
    have hleftCut : sides.left.length = sides.cut := by rw [hleft, length_pointsAt]
    rw [hleftCut] at hparts
    refine ⟨sides.run.toList, hsize.trans hlen, ?_, fun c hc => ?_, fun hnone => ?_⟩
    · have hlast : p.first + sides.cut + (run.length - sides.cut) = p.last := by
        rw [Pending.last, ← hlen]
        omega
      rw [if_neg hgt, hchildren, hparts, List.append_assoc, List.append_assoc]
      simp only [List.map_cons, List.map_nil, List.cons_append, List.nil_append, Pending.fresh,
        Pending.last, hleftLen, hrightLen, hlast]
      rfl
    · rw [hparts] at hc
      obtain rfl | hc := List.mem_cons.1 hc
      · refine ⟨Nat.le_refl _, ?_, ?_⟩
        · rw [Pending.last, Pending.last, hleftLen, ← hlen]
          dsimp only
          omega
        · dsimp only
          rw [hleftLen, Nat.sub_self, ← hleft]
      · rw [List.mem_singleton.1 hc]
        refine ⟨Nat.le_add_right _ _, ?_, ?_⟩
        · rw [Pending.last, Pending.last, hrightLen, ← hlen]
          dsimp only
          omega
        · dsimp only
          rw [hrightLen, Nat.add_sub_cancel_left, ← hright]
    · rw [hparts] at hnone
      cases hnone

/-- **A pass moves one node from the queue to what is done.** -/
theorem IsScanned.visit {root : ConeNode α} {passes : Nat} {a : ConeArena α} {p : Pending α}
    {rest : List (Pending α)} (h : a.IsScanned root passes (p :: rest)) :
    (a.visit passes).IsScanned root (passes + 1) (rest ++ p.parts) := by
  obtain ⟨done, hdone, hnodes, hrow⟩ := h.nodes_eq
  obtain ⟨run, hlen, hvisit, hparts, hleaf⟩ := h.exists_visit hdone hnodes
  obtain ⟨hp, hrest⟩ := List.forall_mem_cons.1 h.fits
  obtain ⟨hapart, hapartRest⟩ := List.pairwise_cons.1 h.apart
  have hfits : p.first + run.length ≤ a.points.length := by rwa [hlen]
  have hgetD := getD_overwrite hfits
  rw [hvisit]
  have hlength := length_overwrite hfits
  generalize overwrite a.points p.first run = points at hgetD hlength ⊢
  rw [hlen] at hgetD
  change ∀ k, points.getD k []
    = if p.first ≤ k ∧ k < p.last then run.getD (k - p.first) [] else a.points.getD k [] at hgetD
  refine ⟨⟨done ++ [⟨p, p.childrenAt a.nodes.length⟩], ?_, rfl, ?_⟩, hlength.trans h.length_eq,
    fun c hc => ?_, fun c hc => ?_, fun c hc => ?_, ?_, fun k hk => ?_⟩
  · rw [List.length_append, hdone, List.length_singleton]
  · rw [layOut] at hrow
    have hsize : a.nodes.length + p.parts.length
        = ((done ++ [Laid.mk p (p.childrenAt a.nodes.length)]).map Laid.toArenaNode
            ++ (rest ++ p.parts).map Pending.fresh).length := by
      rw [hnodes]
      simp only [List.length_append, List.length_map, List.length_cons, List.length_nil]
      omega
    rw [← hrow, ← List.append_cons, hsize]
  · show c.last ≤ points.length
    rw [hlength]
    obtain hc | hc := List.mem_append.1 hc
    · exact hrest c hc
    · exact Nat.le_trans (hparts c hc).2.1 hp
  · obtain hc | hc := List.mem_append.1 hc
    · -- nothing has happened at the positions of the others
      refine (h.built c (List.mem_cons_of_mem _ hc)).trans (congrArg _ ?_)
      refine pointsAt_congr fun k hk => ?_
      rw [hgetD, if_neg]
      have hapart := hapart c hc
      have hlast : c.last = c.first + c.node.points.length := rfl
      omega
    · obtain ⟨hle, hlast, hbuilt⟩ := hparts c hc
      refine hbuilt.trans (congrArg _ (pointsAt_congr fun k hk => ?_))
      have hlast' : c.last = c.first + c.node.points.length := rfl
      rw [hgetD, if_pos (by omega)]
      congr 1
      omega
  · obtain hc | hc := List.mem_append.1 hc
    · exact h.covers c (List.mem_cons_of_mem _ hc)
    · exact Pending.coversFrom_of_mem_parts (h.covers p List.mem_cons_self) hc
  · refine List.pairwise_append.2 ⟨hapartRest, ?_, fun c hc d hd => ?_⟩
    · obtain ⟨node, first, level⟩ := p
      cases node with
      | leaf => exact List.Pairwise.nil
      | split => exact List.pairwise_pair.2 (.inl (Nat.le_refl _))
    · have hapart := hapart c hc
      obtain ⟨hle, hlast, -⟩ := hparts d hd
      omega
  · have hkrest : ∀ c ∈ rest, ¬ (c.first ≤ k ∧ k < c.last) := fun c hc =>
      hk c (List.mem_append_left _ hc)
    by_cases hin : p.first ≤ k ∧ k < p.last
    · have hsettled := Pending.parts_eq_nil hin fun c hc => hk c (List.mem_append_right _ hc)
      -- a leaf has its points for good
      have hcovers := h.covers p List.mem_cons_self (k - p.first) (by
        have hlast : p.last = p.first + p.node.points.length := rfl
        omega)
      rw [Nat.add_sub_cancel' hin.1] at hcovers
      show points.getD k [] = _
      rw [hgetD, if_pos hin, hleaf hsettled, List.getD_eq_getElem]
      exact hcovers.symm
    · show points.getD k [] = _
      rw [hgetD, if_neg hin]
      exact h.settled k (List.forall_mem_cons.2 ⟨hin, hkrest⟩)

/-! ## All passes -/

/-- To start with the queue is the root. -/
theorem isScanned_ofPoints (points : List (List α)) :
    (ofPoints points).IsScanned (ConeTree.nodeOf points) 0 [⟨ConeTree.nodeOf points, 0, 0⟩] := by
  have hlen : (ConeTree.nodeOf points).points.length = points.length :=
    (ConeTree.points_nodeOf_perm points).length_eq
  have hlast : Pending.last ⟨ConeTree.nodeOf points, 0, 0⟩ = points.length :=
    (Nat.zero_add _).trans hlen
  refine ⟨⟨[], rfl, ?_, rfl⟩, hlen.symm, fun p hp => ?_, fun p hp => ?_, fun p hp => ?_,
    List.pairwise_singleton _ _, fun k hk => ?_⟩
  · rw [List.map_nil, List.nil_append, List.map_singleton, Pending.fresh, hlast]
    rfl
  · rw [List.mem_singleton.1 hp]
    exact Nat.le_of_eq hlast
  · rw [List.mem_singleton.1 hp]
    dsimp only
    rw [hlen]
    exact congrArg _ (pointsAt_zero points).symm
  · rw [List.mem_singleton.1 hp]
    exact ConeNode.coversFrom_getD _
  · have hout := hk _ (List.mem_singleton_self _)
    rw [hlast] at hout
    have hle : points.length ≤ k := Nat.le_of_not_lt fun hlt => hout ⟨Nat.zero_le k, hlt⟩
    show points.getD k [] = _
    rw [List.getD_eq_default _ _ hle, List.getD_eq_default _ _ (by rwa [hlen])]

/-- What has been done and what is to be done are the whole tree. -/
theorem IsScanned.passes_add {root : ConeNode α} {passes : Nat} {a : ConeArena α}
    {queue : List (Pending α)} (h : a.IsScanned root passes queue) :
    passes + (queue.map (·.node.nodeCount)).sum = root.nodeCount := by
  obtain ⟨done, hdone, -, hrow⟩ := h.nodes_eq
  have hlen := congrArg List.length hrow
  rw [List.length_append, length_layOut, length_layOut, hdone, List.map_singleton,
    List.sum_singleton] at hlen
  exact hlen

/-- While nodes are missing the queue is not empty. -/
theorem IsScanned.ne_nil {root : ConeNode α} {passes : Nat} {a : ConeArena α}
    {queue : List (Pending α)} (h : a.IsScanned root passes queue)
    (hlt : passes < root.nodeCount) : queue ≠ [] := by
  rintro rfl
  exact absurd h.passes_add (Nat.ne_of_lt hlt)

/-- **As long as nodes are missing the scan goes on**, and keeps its promise. -/
theorem exists_isScanned_scan (points : List (List α)) {passes : Nat}
    (h : passes ≤ (ConeTree.nodeOf points).nodeCount) :
    ∃ queue, (scan points passes).IsScanned (ConeTree.nodeOf points) passes queue := by
  induction passes with
  | zero => exact ⟨_, isScanned_ofPoints points⟩
  | succ passes ih =>
    obtain ⟨queue, hqueue⟩ := ih (Nat.le_of_succ_le h)
    obtain ⟨p, rest, rfl⟩ := List.exists_cons_of_ne_nil (hqueue.ne_nil h)
    have hscan : scan points (passes + 1) = (scan points passes).visit passes := by
      unfold scan
      rw [List.range_succ, List.foldl_concat]
    exact ⟨_, hscan ▸ hqueue.visit⟩

/-- Before all nodes have been visited there is one at the place where the scan is. -/
theorem lt_length_nodes_scan {points : List (List α)} {passes : Nat}
    (h : passes < (ConeTree.nodeOf points).nodeCount) :
    passes < (scan points passes).nodes.length := by
  obtain ⟨queue, hqueue⟩ := exists_isScanned_scan points (Nat.le_of_lt h)
  have hpos := List.length_pos_iff.2 (hqueue.ne_nil h)
  obtain ⟨done, hdone, hnodes, -⟩ := hqueue.nodes_eq
  rw [hnodes, List.length_append, List.length_map, List.length_map, hdone]
  omega

/-- **The scan builds the tree**: after as many passes as the tree has nodes there are
the points of the tree, and its nodes level by level. -/
theorem scan_eq (points : List (List α)) :
    scan points (ConeTree.nodeOf points).nodeCount
      = ⟨(ConeTree.nodeOf points).points, (ConeTree.nodeOf points).row⟩ := by
  obtain ⟨queue, h⟩ := exists_isScanned_scan points (Nat.le_refl _)
  have hempty : queue = [] := by
    cases queue with
    | nil => rfl
    | cons p rest =>
      have hsum := h.passes_add
      rw [List.map_cons, List.sum_cons, p.nodeCount_eq] at hsum
      omega
  subst hempty
  obtain ⟨done, -, hnodes, hrow⟩ := h.nodes_eq
  rw [layOut, List.append_nil] at hrow
  rw [List.map_nil, List.append_nil, hrow] at hnodes
  have hpoints : (scan points (ConeTree.nodeOf points).nodeCount).points
      = (ConeTree.nodeOf points).points := by
    refine List.ext_getElem h.length_eq fun k hk hk' => ?_
    rw [← List.getD_eq_getElem _ [] hk, ← List.getD_eq_getElem _ [] hk']
    exact h.settled k fun p hp => absurd hp List.not_mem_nil
  generalize scan points (ConeTree.nodeOf points).nodeCount = a at hnodes hpoints ⊢
  obtain ⟨_, _⟩ := a
  exact congrArg₂ ConeArena.mk hpoints hnodes

/-! ## The balls -/

/-- **A node as it was built**: over some of the points, which have their final places. -/
structure IsBuiltFrom (points : List (List α)) (p : Pending α) : Prop where
  /-- It is what is built over some of the points. -/
  built : ∃ run, p.node = ConeTree.nodeOf run ∧ run ⊆ points
  /-- Its points are those that the tree has there in the end. -/
  covers : p.node.CoversFrom ((ConeTree.nodeOf points).points.getD · []) p.first
  /-- It lies within the points. -/
  last_le : p.last ≤ (ConeTree.nodeOf points).points.length

/-- **The parts of a node are built from its points.** -/
theorem IsBuiltFrom.part {points : List (List α)} {p c : Pending α} (h : IsBuiltFrom points p)
    (hc : c ∈ p.parts) : IsBuiltFrom points c where
  built := by
    obtain ⟨run, hrun, hsub⟩ := h.built
    have hsides := (ConeTree.Sides.left_append_right_perm run).subset
    obtain ⟨-, -, hparts, -⟩ | ⟨-, hparts, -⟩ := nodeOf_cases hrun
    · rw [hparts] at hc
      exact absurd hc List.not_mem_nil
    · rw [hparts] at hc
      obtain rfl | hc := List.mem_cons.1 hc
      · exact ⟨_, rfl, fun x hx => hsub (hsides (List.mem_append_left _ hx))⟩
      · rw [List.mem_singleton.1 hc]
        exact ⟨_, rfl, fun x hx => hsub (hsides (List.mem_append_right _ hx))⟩
  covers := Pending.coversFrom_of_mem_parts h.covers hc
  last_le := Nat.le_trans (Pending.last_le_of_mem_parts hc) h.last_le

/-- The root is built from all points. -/
theorem isBuiltFrom_root (points : List (List α)) :
    IsBuiltFrom points ⟨ConeTree.nodeOf points, 0, 0⟩ where
  built := ⟨points, rfl, List.Subset.refl points⟩
  covers := ConeNode.coversFrom_getD _
  last_le := Nat.le_of_eq (Nat.zero_add _)

/-- **Every node has the ball around the points of its run**, in the order in which they
were when the scan came to it; later passes have only rearranged them. -/
theorem exists_run_of_mem_nodes_scan {points : List (List α)} {n : ArenaNode α}
    (hn : n ∈ (scan points (ConeTree.nodeOf points).nodeCount).nodes) :
    ∃ run ⊆ points, n.ball = Ball.around run
      ∧ ((scan points (ConeTree.nodeOf points).nodeCount).run n).Perm run := by
  rw [scan_eq] at hn ⊢
  obtain ⟨e, he, rfl⟩ := List.mem_map.1 hn
  obtain ⟨⟨run, hrun, hsub⟩, hcovers, hlast⟩ :=
    forall_mem_layOut (P := IsBuiltFrom points) (fun p hp c => hp.part)
      (fun p hp => by
        rw [List.mem_singleton.1 hp]
        exact isBuiltFrom_root points) 1 e he
  refine ⟨run, hsub, by rw [← ball_nodeOf, ← hrun]; rfl, ?_⟩
  have hpoints : ConeArena.run ⟨(ConeTree.nodeOf points).points, (ConeTree.nodeOf points).row⟩
      e.toArenaNode = e.node.points := by
    show ((ConeTree.nodeOf points).points.drop e.first).take (e.last - e.first) = _
    have hspan : e.last - e.first = e.node.points.length := Nat.add_sub_cancel_left _ _
    rw [hspan, take_drop_eq_pointsAt hlast]
    refine List.ext_getElem (length_pointsAt _ _ _) fun k hk hk' => ?_
    rw [← hcovers k hk']
    simp [pointsAt]
  rw [hpoints, hrun]
  exact ConeTree.points_nodeOf_perm run

end ConeArena

/-- **A tree and its nodes.** Over points of equal dimension, however their distances
compare, a tree is built, and it has the points in some order. Scanned level by level the
row of nodes grows until there are as many as the tree has, and then the scan is at its
end; what it has made is the nodes and points of the tree. The row is a tree over all
points, and the depth of the tree is its lowest level and the length of the longest way
down. -/
theorem ConeTree.isTreeRow_ofPoints {points : List (List α)} {dim : Nat} (hne : points ≠ [])
    (hdim : 0 < dim) (h : ∀ p ∈ points, p.length = dim) :
    ∃ t, ConeTree.ofPoints points = .ok t ∧ t.points.toList.Perm points
      ∧ (∀ passes < t.nodeCount, passes < (ConeArena.scan points passes).nodes.length)
      ∧ ConeArena.scan points t.nodeCount = ⟨t.points.toList, t.root.row⟩
      ∧ t.root.row.length = t.nodeCount
      ∧ IsTreeRow t.root.row points.length
      ∧ (ConeArena.scan points t.nodeCount).depth = t.depth
      ∧ IsPathFrom t.root.row 0 t.depth
      ∧ ∀ length, IsPathFrom t.root.row 0 length → length ≤ t.depth := by
  have hbuilt := ConeTree.ofPoints_eq_ok hne hdim h
  have hperm := points_nodeOf_perm points
  have hscan := ConeArena.scan_eq points
  have hproper : (nodeOf points).IsProper := isProper_nodeOf (List.length_pos_iff.2 hne)
  refine ⟨_, hbuilt, hperm, fun passes => ConeArena.lt_length_nodes_scan, hscan,
    (nodeOf points).length_row, hperm.length_eq ▸ hproper.isTreeRow, ?_,
    (nodeOf points).isPathFrom_root_depth⟩
  show (ConeArena.scan points (nodeOf points).nodeCount).depth = _
  rw [hscan]
  exact (nodeOf points).foldl_max_level_row

/-- Nine points that are not a number: no two distances compare, so they are halved. -/
def nanPoints : List (List Binary64) :=
  List.replicate 9 [⟨0x7ff8000000000000⟩]

/-- They make a tree of a root and two leaves. -/
theorem nanPoints_isTreeRow :
    ∃ t, ConeTree.ofPoints nanPoints = .ok t ∧ IsTreeRow t.root.row 9
      ∧ t.root.row.map (fun e => (e.first, e.last, e.children))
        = [(0, 9, some (1, 2)), (0, 4, none), (4, 9, none)] := by
  obtain ⟨t, ht, -, -, hscan, -, hrow, -⟩ := ConeTree.isTreeRow_ofPoints
    (show nanPoints ≠ [] by decide) Nat.one_pos (show ∀ p ∈ nanPoints, p.length = 1 by decide)
  have hcount : (ConeTree.ofPoints nanPoints).map (·.nodeCount) = .ok 3 := by decide +kernel
  rw [ht] at hcount
  rw [show t.nodeCount = 3 from Except.ok.inj hcount] at hscan
  have hnodes : (ConeArena.scan nanPoints 3).nodes = t.root.row := congrArg _ hscan
  refine ⟨t, ht, hrow, ?_⟩
  rw [← hnodes]
  decide +kernel

end ParetoSelection
