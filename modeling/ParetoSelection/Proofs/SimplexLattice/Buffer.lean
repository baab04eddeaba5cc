import ParetoSelection.Proofs.Access
import ParetoSelection.SimplexLattice.Buffer

/-!
# One buffer emits the lattice

A level of the recursion finds the coordinates before its own in the buffer, and it leaves
them as they are; what is behind them has no influence on what it emits, because every place
behind is written again before the next copy. So a level emits the compositions of what
remains into as many parts as there are places left, each of them behind the coordinates that
stand before them (`Emits`). From the first level on these are all compositions, and the
points that are emitted are the points of the lattice in their order
(`emitAll_eq_checkedPoints`).
-/

namespace ParetoSelection

namespace SimplexLattice

variable {α : Type} [Scalar α]

/-- **What a level at `depth` does**: it leaves the coordinates before its own, and it emits
the multiples of the step for some tuples, each of them behind these coordinates. -/
structure Emits (divisions depth : Nat) (state state' : Emission α) (tuples : List (List Nat)) :
    Prop where
  /-- The buffer is as long as before. -/
  size_eq : state'.current.size = state.current.size
  /-- The coordinates before the level are left. -/
  take_eq : state'.current.toList.take depth = state.current.toList.take depth
  /-- The tuples are emitted behind these coordinates. -/
  emitted_eq : state'.emitted.toList = state.emitted.toList ++ tuples.map fun c =>
    state.current.toList.take depth ++ c.map fun i => Scalar.ofNat i / Scalar.ofNat divisions

variable {divisions depth : Nat} {state state' state'' : Emission α}

/-- Before its first pass a level has emitted nothing. -/
theorem Emits.refl : Emits divisions depth state state [] where
  size_eq := rfl
  take_eq := rfl
  emitted_eq := (List.append_nil _).symm

/-- What is emitted in two steps is emitted one after the other. -/
theorem Emits.trans {cs ds : List (List Nat)} (h : Emits divisions depth state state' cs)
    (h' : Emits divisions depth state' state'' ds) :
    Emits divisions depth state state'' (cs ++ ds) where
  size_eq := h'.size_eq.trans h.size_eq
  take_eq := h'.take_eq.trans h.take_eq
  emitted_eq := by rw [h'.emitted_eq, h.emitted_eq, h.take_eq, List.map_append, List.append_assoc]

/-- **A coordinate is written behind those that are there**, and nothing is emitted. -/
theorem exists_place_eq_ok (divisions i : Nat) (hdepth : depth < state.current.size) :
    ∃ state', state.place divisions depth i = .ok state'
      ∧ state'.current.size = state.current.size
      ∧ state'.emitted = state.emitted
      ∧ state'.current.toList.take (depth + 1)
          = state.current.toList.take depth ++ [Scalar.ofNat i / Scalar.ofNat divisions] := by
  have hlen : depth < state.current.toList.length := hdepth
  refine ⟨⟨state.current.set depth (Scalar.ofNat i / Scalar.ofNat divisions) hdepth,
    state.emitted⟩, ?_, Array.size_set hdepth, rfl, ?_⟩
  · rw [Emission.place, writeAt, dif_pos hdepth]
    rfl
  · rw [Array.toList_set, List.set_eq_take_append_cons_drop, if_pos hlen, List.take_append,
      List.take_take, List.length_take]
    have hmin : min depth state.current.toList.length = depth := Nat.min_eq_left (Nat.le_of_lt hlen)
    have hone : depth + 1 - depth = 1 := by omega
    rw [hmin, hone, Nat.min_eq_right (Nat.le_succ depth)]
    rfl

/-- What the level below emits is emitted behind the coordinate of this one. -/
theorem Emits.of_place {i : Nat} {cs : List (List Nat)}
    (hsize : state'.current.size = state.current.size)
    (hemitted : state'.emitted = state.emitted)
    (htake : state'.current.toList.take (depth + 1)
      = state.current.toList.take depth ++ [Scalar.ofNat i / Scalar.ofNat divisions])
    (hdepth : depth < state.current.size)
    (h : Emits divisions (depth + 1) state' state'' cs) :
    Emits divisions depth state state'' (cs.map (i :: ·)) where
  size_eq := h.size_eq.trans hsize
  take_eq := by
    have hall := congrArg (List.take depth) (h.take_eq.trans htake)
    have hlen : (state.current.toList.take depth).length = depth := by
      rw [List.length_take]
      exact Nat.min_eq_left (Nat.le_of_lt hdepth)
    rw [List.take_take, Nat.min_eq_left (Nat.le_succ depth), List.take_left' hlen] at hall
    exact hall
  emitted_eq := by
    rw [h.emitted_eq, hemitted, htake, List.map_map]
    refine congrArg _ (List.map_congr_left fun c _ => ?_)
    rw [Function.comp_apply, List.map_cons, List.append_assoc, List.singleton_append]

/-- **A level emits the compositions of what remains**, with a part for each place that is
left. -/
theorem exists_emit_eq_ok (divisions : Nat) {further depth remaining : Nat} {state : Emission α}
    (hplaces : depth + further + 1 = state.current.size) :
    ∃ state', emit divisions further depth remaining state = .ok state'
      ∧ Emits divisions depth state state' (compositions (further + 1) remaining) := by
  -- Over the levels below. The loop of a level has emitted, before the pass of `i`, the
  -- compositions whose first part is less than `i`.
  induction further generalizing depth remaining state with
  | zero =>
    have hdepth : depth < state.current.size := by omega
    obtain ⟨state', hplace, hsize, hemitted, htake⟩ := exists_place_eq_ok divisions remaining hdepth
    refine ⟨⟨state'.current, state'.emitted.push state'.current.toList⟩, ?_, ?_⟩
    · rw [emit, hplace]
      rfl
    · have hfull : state'.current.toList.take (depth + 1) = state'.current.toList := by
        refine List.take_of_length_le ?_
        rw [Array.length_toList]
        omega
      have hcopied : Emits divisions (depth + 1) state'
          ⟨state'.current, state'.emitted.push state'.current.toList⟩ [[]] := by
        refine ⟨rfl, rfl, ?_⟩
        rw [Array.toList_push, hfull, List.map_singleton, List.map_nil, List.append_nil]
      exact .of_place hsize hemitted htake hdepth hcopied
  | succ further ih =>
    have hdepth : depth < state.current.size := by omega
    have hpass (i : Nat) (reached : Emission α)
        (hreached : Emits divisions depth state reached ((List.range i).flatMap fun i =>
          (compositions (further + 1) (remaining - i)).map (i :: ·))) :
        ∃ next, (reached.place divisions depth i
              >>= emit divisions further (depth + 1) (remaining - i)) = .ok next
          ∧ Emits divisions depth state next ((List.range (i + 1)).flatMap fun i =>
            (compositions (further + 1) (remaining - i)).map (i :: ·)) := by
      have hplace := exists_place_eq_ok divisions i (hreached.size_eq ▸ hdepth)
      obtain ⟨placed, hplace, hsize, hemitted, htake⟩ := hplace
      have hleft : depth + 1 + further + 1 = placed.current.size := by
        rw [hsize, hreached.size_eq]
        omega
      obtain ⟨next, hnext, hbelow⟩ := @ih (depth + 1) (remaining - i) placed hleft
      refine ⟨next, ?_, ?_⟩
      · rw [hplace]
        exact hnext
      · rw [List.range_succ, List.flatMap_append, List.flatMap_singleton]
        exact hreached.trans (.of_place hsize hemitted htake (hreached.size_eq ▸ hdepth) hbelow)
    obtain ⟨state', hloop, hall⟩ := exists_foldlM_range'_eq_ok (s := state)
      (P := fun i reached => Emits divisions depth state reached ((List.range i).flatMap fun i =>
        (compositions (further + 1) (remaining - i)).map (i :: ·)))
      0 (remaining + 1) (fun i reached _ _ => hpass i reached) Emits.refl
    refine ⟨state', hloop, ?_⟩
    rw [Nat.zero_add] at hall
    exact hall

/-- The buffer of the first level has a place for every coordinate, and what is copied from it
one after the other are the points in their order. -/
theorem exists_emit_replicate_eq_ok {dim divisions : Nat} (hdim : dim ≠ 0)
    (hdivisions : divisions ≠ 0) :
    ∃ state' : Emission α,
      emit divisions (dim - 1) 0 divisions ⟨Array.replicate dim (Scalar.ofNat 0), #[]⟩ = .ok state'
        ∧ state'.emitted.toList = points dim divisions := by
  have hplaces : 0 + (dim - 1) + 1 = (Array.replicate dim (Scalar.ofNat 0 : α)).size := by
    rw [Array.size_replicate]
    omega
  obtain ⟨state', hemit, hall⟩ : ∃ state', emit divisions (dim - 1) 0 divisions
      ⟨Array.replicate dim (Scalar.ofNat 0 : α), #[]⟩ = .ok state' ∧ Emits divisions 0 _ state' _ :=
    exists_emit_eq_ok divisions hplaces
  have hparts : dim - 1 + 1 = dim := Nat.succ_pred hdim
  refine ⟨state', hemit, ?_⟩
  rw [hall.emitted_eq, hparts, points, if_neg hdivisions]
  rfl

/-- **The buffer emits the lattice** if there is room for it, and nothing otherwise: no place
is missing in it. -/
theorem emitAll_eq_checkedPoints (dim divisions : Nat) :
    emitAll dim divisions = (checkedPoints dim divisions : Except Failure (List (List α))) := by
  rw [emitAll, checkedPoints]
  by_cases hnone : dim = 0 ∨ divisions = 0
  · -- Nothing is emitted, and the table of no points or of one point has room.
    rw [if_pos hnone]
    obtain rfl | rfl := hnone
    · rw [size, if_pos rfl, if_neg (Nat.not_lt_zero _), points]
      split <;> rfl
    · have hone : ¬ maxPoints < size dim 0 := by
        rw [size]
        split
        · exact Nat.not_lt_zero _
        · rw [Nat.zero_add, choose, if_neg (Nat.lt_irrefl _), Nat.sub_self, Nat.min_zero,
            chooseFrom]
          decide
      rw [if_neg hone]
      rfl
  · obtain ⟨hdim, hdivisions⟩ := not_or.1 hnone
    rw [if_neg hnone]
    by_cases hroom : maxPoints < size dim divisions
    · rw [if_pos hroom, if_pos hroom]
      rfl
    · obtain ⟨state', hemit, hpoints⟩ := exists_emit_replicate_eq_ok (α := α) hdim hdivisions
      rw [if_neg hroom, if_neg hroom, ← hpoints]
      change (emit divisions (dim - 1) 0 divisions _ >>= fun state => _) = _
      rw [hemit]
      rfl

end SimplexLattice

end ParetoSelection
