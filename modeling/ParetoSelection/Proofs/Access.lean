import ParetoSelection.Access

/-!
# Reading and writing what is there

An access at a position that an array has succeeds. What is read is the element, and what is
written is read afterwards at the positions it was written to and nowhere else.

A loop over consecutive positions goes through if each pass leads from what holds before the
position to what holds before the next one (`exists_foldlM_range'_eq_ok`).
-/

namespace ParetoSelection

variable {β : Type} {xs : Array β} {i : Nat}

/-- A step that succeeds hands on its result. -/
@[simp]
theorem ok_bind {γ : Type} (x : β) (f : β → Except Failure γ) :
    ((.ok x : Except Failure β) >>= f) = f x := rfl

/-- An element that is there is read. -/
theorem readAt_eq_getD (h : i < xs.size) (d : β) : readAt xs i = .ok (xs.getD i d) := by
  rw [readAt, Array.getElem?_eq_getElem h, Array.getD_eq_getD_getElem?,
    Array.getElem?_eq_getElem h, Option.getD_some]

/-- One that is not there cannot be read. -/
theorem readAt_eq_error (h : xs.size ≤ i) : readAt xs i = .error .outOfRange := by
  rw [readAt, Array.getElem?_eq_none h]

/-- **A position that is there is written**, and no other one changes. -/
theorem writeAt_eq_ok (x : β) (h : i < xs.size) :
    ∃ ys, writeAt xs i x = .ok ys ∧ ys.size = xs.size
      ∧ ∀ d k, ys.getD k d = if k = i then x else xs.getD k d := by
  refine ⟨xs.set i x h, dif_pos h, Array.size_set h, fun d k => ?_⟩
  rw [Array.getD_eq_getD_getElem?, Array.getElem?_set]
  by_cases hki : i = k
  · rw [if_pos hki, if_pos hki.symm, Option.getD_some]
  · rw [if_neg hki, if_neg (Ne.symm hki), Array.getD_eq_getD_getElem?]

/-- A position that is there is written whether or not this is checked. -/
theorem writeAt_eq_setIfInBounds (x : β) (h : i < xs.size) :
    writeAt xs i x = .ok (xs.setIfInBounds i x) := by
  rw [writeAt, Array.setIfInBounds, dif_pos h, dif_pos h]

/-- What is laid out from a list is in the places of the list. -/
theorem getD_toArray (xs : List β) (i : Nat) (d : β) : xs.toArray.getD i d = xs.getD i d := by
  rw [Array.getD_eq_getD_getElem?, List.getElem?_toArray, List.getD_eq_getElem?_getD]

/-- Everything is the same in an array that is filled with one element. -/
theorem getD_replicate {n k : Nat} {x d : β} (hk : k < n) : (Array.replicate n x).getD k d = x := by
  rw [Array.getD_eq_getD_getElem?, Array.getElem?_replicate, if_pos hk, Option.getD_some]

/-- An array is what is at its positions. -/
theorem eq_of_getD_eq {xs ys : Array β} (d : β) (hsize : xs.size = ys.size)
    (h : ∀ k < xs.size, xs.getD k d = ys.getD k d) : xs = ys := by
  refine Array.ext hsize fun k hk hk' => ?_
  have hget := h k hk
  rwa [Array.getD_eq_getD_getElem?, Array.getD_eq_getD_getElem?, Array.getElem?_eq_getElem hk,
    Array.getElem?_eq_getElem hk', Option.getD_some, Option.getD_some] at hget

/-- Positions in the order they have are those of a slice. -/
theorem sliceOf_eq_ok {xs : List β} {first last : Nat} (h : first ≤ last)
    (hlast : last ≤ xs.length) : sliceOf xs first last = .ok ((xs.take last).drop first) :=
  if_pos ⟨h, hlast⟩

/-- **Positions that are there are written**, and no other one changes. -/
theorem writeAll_eq_ok (x : β) {positions : List Nat} (h : ∀ i ∈ positions, i < xs.size) :
    ∃ ys, writeAll xs x positions = .ok ys ∧ ys.size = xs.size
      ∧ ∀ d k, ys.getD k d = if k ∈ positions then x else xs.getD k d := by
  induction positions generalizing xs with
  | nil => exact ⟨xs, rfl, rfl, fun d k => (if_neg List.not_mem_nil).symm⟩
  | cons i positions ih =>
    obtain ⟨ys, hwrite, hsize, hget⟩ := writeAt_eq_ok x (h i List.mem_cons_self)
    have hrest : ∀ k ∈ positions, k < ys.size := fun k hk =>
      hsize.symm ▸ h k (List.mem_cons_of_mem i hk)
    obtain ⟨zs, hwriteAll, hsizeAll, hgetAll⟩ := ih hrest
    refine ⟨zs, ?_, hsizeAll.trans hsize, fun d k => ?_⟩
    · rw [writeAll, hwrite]
      exact hwriteAll
    · rw [hgetAll, hget]
      by_cases hmem : k ∈ positions
      · rw [if_pos hmem, if_pos (List.mem_cons_of_mem i hmem)]
      · simp only [List.mem_cons, hmem, or_false, if_false]

/-- Whatever has been written was there to be written. -/
theorem lt_size_of_writeAll_eq_ok {ys : Array β} {x : β} {positions : List Nat}
    (h : writeAll xs x positions = .ok ys) : ∀ i ∈ positions, i < xs.size := by
  induction positions generalizing xs with
  | nil => exact fun _ hi => absurd hi List.not_mem_nil
  | cons i positions ih =>
    by_cases hi : i < xs.size
    · rw [writeAll, writeAt, dif_pos hi] at h
      refine List.forall_mem_cons.2 ⟨hi, fun k hk => ?_⟩
      exact Array.size_set hi ▸ ih h k hk
    · rw [writeAll, writeAt, dif_neg hi] at h
      cases h

/-- Writing the same once more changes nothing. -/
theorem writeAll_writeAll {ys : Array β} {x : β} {positions : List Nat}
    (h : writeAll xs x positions = .ok ys) : writeAll ys x positions = .ok ys := by
  have hlt := lt_size_of_writeAll_eq_ok h
  obtain ⟨ys', hwrite, hsize, hget⟩ := writeAll_eq_ok x hlt
  obtain rfl := Except.ok.inj (hwrite.symm.trans h)
  obtain ⟨zs, hagain, hsize', hget'⟩ := writeAll_eq_ok x fun i hi => hsize.symm ▸ hlt i hi
  rw [hagain, eq_of_getD_eq x hsize' fun k _ => ?_]
  rw [hget', hget]
  split <;> rfl

/-! ## Loops -/

/-- A search that can check everybody finds somebody if there is somebody to find. -/
theorem anyOf_eq_ok {check : Nat → Except Failure Bool} {p : Nat → Bool} {candidates : List Nat}
    (h : ∀ i ∈ candidates, check i = .ok (p i)) :
    anyOf check candidates = .ok (candidates.any p) := by
  induction candidates with
  | nil => rfl
  | cons i rest ih =>
    rw [anyOf, h i List.mem_cons_self, ih fun k hk => h k (List.mem_cons_of_mem i hk),
      List.any_cons]
    cases p i <;> rfl

/-- A selection that can check everybody keeps those who pass. -/
theorem keepIf_eq_ok {check : Nat → Except Failure Bool} {p : Nat → Bool}
    {candidates : List Nat} (h : ∀ i ∈ candidates, check i = .ok (p i)) :
    keepIf check candidates = .ok (candidates.filter p) := by
  induction candidates with
  | nil => rfl
  | cons i rest ih =>
    rw [keepIf, h i List.mem_cons_self, ih fun k hk => h k (List.mem_cons_of_mem i hk),
      List.filter_cons]
    rfl

/-- A count that can check everybody goes up to the first who does not pass. -/
theorem leading_eq_ok {check : Nat → Except Failure Bool} {p : Nat → Bool}
    {candidates : List Nat} (h : ∀ i ∈ candidates, check i = .ok (p i)) :
    leading check candidates = .ok (candidates.takeWhile p).length := by
  induction candidates with
  | nil => rfl
  | cons i rest ih =>
    rw [leading, h i List.mem_cons_self, ih fun k hk => h k (List.mem_cons_of_mem i hk),
      List.takeWhile_cons]
    cases p i <;> rfl

/-- What can be done for everybody is done for all. -/
theorem mapM_eq_ok {γ : Type} {f : Nat → Except Failure γ} {g : Nat → γ} {candidates : List Nat}
    (h : ∀ i ∈ candidates, f i = .ok (g i)) : candidates.mapM f = .ok (candidates.map g) := by
  induction candidates with
  | nil => rfl
  | cons i rest ih =>
    rw [List.mapM_cons, h i List.mem_cons_self,
      ih fun k hk => h k (List.mem_cons_of_mem i hk)]
    rfl

/-- What cannot be done for somebody fails for all. -/
theorem mapM_eq_error {γ : Type} {f : Nat → Except Failure γ} {e : Failure}
    {candidates : List Nat} (h : ∀ i ∈ candidates, f i = .error e ∨ ∃ x, f i = .ok x)
    (hfails : ∃ i ∈ candidates, f i = .error e) : candidates.mapM f = .error e := by
  induction candidates with
  | nil =>
    obtain ⟨i, hi, -⟩ := hfails
    exact absurd hi List.not_mem_nil
  | cons i rest ih =>
    rw [List.mapM_cons]
    obtain hi | ⟨x, hi⟩ := h i List.mem_cons_self
    · rw [hi]
      rfl
    · obtain ⟨k, hk, hfail⟩ := hfails
      obtain rfl | hk := List.mem_cons.1 hk
      · cases hi.symm.trans hfail
      · rw [hi, ih (fun l hl => h l (List.mem_cons_of_mem i hl)) ⟨k, hk, hfail⟩]
        rfl

/-- **A loop over consecutive positions goes through** and keeps what each pass keeps. -/
theorem exists_foldlM_range'_eq_ok {τ : Type} {f : τ → Nat → Except Failure τ}
    {P : Nat → τ → Prop} (first count : Nat) {s : τ}
    (hpass : ∀ k t, first ≤ k → k < first + count → P k t → ∃ t', f t k = .ok t' ∧ P (k + 1) t')
    (hs : P first s) :
    ∃ t, (List.range' first count).foldlM f s = .ok t ∧ P (first + count) t := by
  induction count generalizing first s with
  | zero => exact ⟨s, rfl, hs⟩
  | succ count ih =>
    obtain ⟨s', hs', hnext⟩ := hpass first s (Nat.le_refl _) (by omega) hs
    obtain ⟨t, ht, hend⟩ :=
      ih (first + 1) (fun k t hk hlt => hpass k t (Nat.le_of_succ_le hk) (by omega)) hnext
    refine ⟨t, ?_, Nat.succ_add_eq_add_succ first count ▸ hend⟩
    rw [List.range'_succ, List.foldlM_cons, hs']
    exact ht

end ParetoSelection
