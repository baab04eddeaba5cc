import Mathlib
import ParetoSelection.ConeTree.Scan
import ParetoSelection.Proofs.ConeTree.Build

/-!
# A tree in a row

The nodes of a tree are laid out level by level: a queue of nodes waits for its place,
the first of them takes the next place, and its parts go to the end of the queue
(`layOut`). Whoever is at the end of the queue has a place already, namely as many
places on as there are nodes before it, so the parts of a node can be referred to by
their places before they have been laid down (`exists_parts_layOut`).

A number that belongs to a node and is shared out between the node itself and its parts
is, for the queue, the sum over all nodes that are laid down (`sum_layOut`). The number
of nodes, the number of leaves, and whether a position is covered are such numbers; so
there is one leaf for every position.
-/

namespace ParetoSelection

variable {α : Type}

/-- **A node in the queue.** -/
structure Pending (α : Type) where
  /-- The node. -/
  node : ConeNode α
  /-- The position of its first point. -/
  first : Nat
  /-- How far below the root it is. -/
  level : Nat

namespace Pending

/-- One past the position of its last point. -/
def last (p : Pending α) : Nat :=
  p.first + p.node.points.length

/-- The two parts of an inner node. -/
def parts : Pending α → List (Pending α)
  | ⟨.leaf _ _, _, _⟩ => []
  | ⟨.split _ _ left right, first, level⟩ =>
    [⟨left, first, level + 1⟩, ⟨right, first + left.points.length, level + 1⟩]

/-- The places of the parts, if `next` is the first of them. -/
def childrenAt (p : Pending α) (next : Nat) : Option (Nat × Nat) :=
  match p.node with
  | .leaf _ _ => none
  | .split _ _ _ _ => some (next, next + 1)

/-- A node has one place more than its parts together. -/
theorem nodeCount_eq (p : Pending α) :
    p.node.nodeCount = 1 + (p.parts.map (·.node.nodeCount)).sum := by
  obtain ⟨node, first, level⟩ := p
  cases node with
  | leaf => rfl
  | split _ _ left right => simp [parts, ConeNode.nodeCount, Nat.add_assoc]

end Pending

/-- **A node that has been laid down**, with the places of its parts. -/
structure Laid (α : Type) extends Pending α where
  /-- The places of the two parts of an inner node. -/
  children : Option (Nat × Nat)

/-- **The nodes of a queue, laid down one after the other.** The parts of the first of
them get places from `next` on. -/
def layOut : (queue : List (Pending α)) → (next : Nat) → List (Laid α)
  | [], _ => []
  | p :: rest, next =>
    ⟨p, p.childrenAt next⟩ :: layOut (rest ++ p.parts) (next + p.parts.length)
termination_by queue => (queue.map (·.node.nodeCount)).sum
decreasing_by
  rw [List.map_append, List.sum_append, List.map_cons, List.sum_cons, p.nodeCount_eq]
  omega

/-! ## Sums over the nodes -/

/-- **What is shared out between a node and its parts** is, over a queue, the sum of the
shares of all nodes that are laid down. -/
theorem sum_layOut {share total : Pending α → Nat}
    (h : ∀ p, total p = share p + (p.parts.map total).sum) (queue : List (Pending α))
    (next : Nat) :
    ((layOut queue next).map fun e => share e.toPending).sum = (queue.map total).sum := by
  fun_induction layOut queue next with
  | case1 => rfl
  | case2 p rest next ih =>
    rw [List.map_cons, List.sum_cons, ih, List.map_append, List.sum_append, List.map_cons,
      List.sum_cons, h p, Nat.add_comm _ (p.parts.map total).sum, Nat.add_assoc]

/-- How many have a property is a sum over all. -/
theorem countP_eq_sum_map {β : Type} (p : β → Prop) [DecidablePred p] (xs : List β) :
    xs.countP p = (xs.map fun x => if p x then 1 else 0).sum := by
  induction xs with
  | nil => rfl
  | cons x xs ih =>
    rw [List.countP_cons, List.map_cons, List.sum_cons, ih, Nat.add_comm]
    simp only [decide_eq_true_eq]

/-- **There are as many places as nodes.** -/
theorem length_layOut (queue : List (Pending α)) (next : Nat) :
    (layOut queue next).length = (queue.map (·.node.nodeCount)).sum := by
  fun_induction layOut queue next with
  | case1 => rfl
  | case2 p rest next ih =>
    rw [List.length_cons, ih, List.map_append, List.sum_append, List.map_cons, List.sum_cons,
      p.nodeCount_eq]
    omega

/-- What parts inherit from a node, all nodes that are laid down have from the queue. -/
theorem forall_mem_layOut {P : Pending α → Prop} (h : ∀ p, P p → ∀ c ∈ p.parts, P c)
    {queue : List (Pending α)} (hqueue : ∀ p ∈ queue, P p) (next : Nat) :
    ∀ e ∈ layOut queue next, P e.toPending := by
  fun_induction layOut queue next with
  | case1 => exact fun e he => absurd he List.not_mem_nil
  | case2 p rest next ih =>
    obtain ⟨hp, hrest⟩ := List.forall_mem_cons.1 hqueue
    refine List.forall_mem_cons.2 ⟨hp, ih fun c hc => ?_⟩
    obtain hc | hc := List.mem_append.1 hc
    · exact hrest c hc
    · exact h p hp c hc

/-! ## Places -/

/-- The queue is laid down first. -/
theorem toPending_layOut {queue : List (Pending α)} {k : Nat} (hk : k < queue.length)
    (next : Nat) : (layOut queue next)[k]?.map Laid.toPending = some queue[k] := by
  fun_induction layOut queue next generalizing k with
  | case1 => exact absurd hk (Nat.not_lt_zero k)
  | case2 p rest next ih =>
    cases k with
    | zero => rfl
    | succ k =>
      have hlt : k < rest.length := Nat.lt_of_succ_lt_succ hk
      rw [List.getElem?_cons_succ, ih (Nat.lt_of_lt_of_le hlt (by simp)),
        List.getElem_append_left hlt, List.getElem_cons_succ]

/-- Once a node is laid down, its parts are at the end of the queue. -/
theorem next_add_length_parts {p : Pending α} {rest : List (Pending α)} {next place : Nat}
    (hnext : next = place + (p :: rest).length) :
    next + p.parts.length = place + 1 + (rest ++ p.parts).length := by
  rw [hnext, List.length_append, List.length_cons]
  omega

/-- The first place is that of the root. -/
theorem exists_root_layOut (node : ConeNode α) :
    ∃ e : Laid α, (layOut [⟨node, 0, 0⟩] 1)[0]? = some e ∧ e.toPending = ⟨node, 0, 0⟩ :=
  Option.map_eq_some_iff.1 (toPending_layOut Nat.zero_lt_one 1)

/-- **The parts of a node are laid down where the node says**, further on. -/
theorem exists_parts_layOut {queue : List (Pending α)} {next place : Nat}
    (hnext : next = place + queue.length) {k : Nat} {e : Laid α}
    (he : (layOut queue next)[k]? = some e) :
    ∃ j, k < j ∧ e.children = e.childrenAt (place + j)
      ∧ ∀ n (hn : n < e.parts.length),
          (layOut queue next)[j + n]?.map Laid.toPending = some e.parts[n] := by
  fun_induction layOut queue next generalizing place k with
  | case1 => cases he
  | case2 p rest next ih =>
    cases k with
    | zero =>
      obtain rfl := Option.some.inj he
      refine ⟨rest.length + 1, Nat.succ_pos _, by rw [hnext, List.length_cons], fun n hn => ?_⟩
      have hlt : rest.length + n < (rest ++ p.parts).length := by
        rw [List.length_append]
        exact Nat.add_lt_add_left hn _
      rw [Nat.add_right_comm, List.getElem?_cons_succ, toPending_layOut hlt,
        List.getElem_append_right (Nat.le_add_right _ _)]
      simp only [Nat.add_sub_cancel_left]
    | succ k =>
      obtain ⟨j, hkj, hchildren, hparts⟩ := ih (next_add_length_parts hnext) he
      refine ⟨j + 1, Nat.succ_lt_succ hkj, ?_, fun n hn => ?_⟩
      · rw [hchildren, Nat.add_assoc, Nat.add_comm 1]
      · rw [Nat.add_right_comm, List.getElem?_cons_succ]
        exact hparts n hn

/-- The places that a node refers to. -/
def childPlaces : Option (Nat × Nat) → List Nat
  | none => []
  | some (left, right) => [left, right]

/-- A node refers to as many places as it has parts, one after the other. -/
theorem childPlaces_childrenAt (p : Pending α) (next : Nat) :
    childPlaces (p.childrenAt next) = List.range' next p.parts.length := by
  obtain ⟨node, first, level⟩ := p
  cases node with
  | leaf => rfl
  | split => rfl

/-- **All places but those of the queue are referred to, in order.** -/
theorem flatMap_childPlaces_layOut {queue : List (Pending α)} {next place : Nat}
    (hnext : next = place + queue.length) :
    (layOut queue next).flatMap (fun e => childPlaces e.children)
      = List.range' next (place + (layOut queue next).length - next) := by
  fun_induction layOut queue next generalizing place with
  | case1 next => rw [hnext, List.length_nil, List.length_nil, Nat.sub_self]; rfl
  | case2 p rest next ih =>
    have hlonger : (rest ++ p.parts).length ≤ (layOut (rest ++ p.parts)
        (next + p.parts.length)).length := by
      refine Nat.le_of_not_lt fun hlt => ?_
      have hlast := toPending_layOut hlt (next + p.parts.length)
      rw [List.getElem?_eq_none (Nat.le_refl _)] at hlast
      cases hlast
    have hplace := next_add_length_parts hnext
    rw [List.flatMap_cons, ih hplace, childPlaces_childrenAt, List.length_cons]
    rw [List.length_append] at hlonger hplace
    rw [List.range'_append_1]
    congr 1
    omega

end ParetoSelection
