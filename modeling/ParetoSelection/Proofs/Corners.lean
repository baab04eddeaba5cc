import Mathlib.Data.List.Basic
import Mathlib.Data.List.GetD
import Mathlib.Data.List.Induction
import ParetoSelection.Geometry
import ParetoSelection.Proofs.Keyed

/-!
# Corners of points

The upper corner of some points has the largest coordinate on every axis, the lower
corner the smallest. Both come about in the same way: points are combined axis by axis,
by the choice of one of two coordinates. Where coordinates are compared by keys, such a
corner has the *greatest* coordinates by the keys that the choice is made by
(`isGreatestOn_foldl`), which for the lower corner are the keys in reverse order.
-/

namespace ParetoSelection

variable {α κ : Type} [Scalar α]

/-! ## Coordinates -/

omit [Scalar α] in
/-- A coordinate of two points that are combined axis by axis. -/
theorem getD_zipWith {f : α → α → α} {a b : List α} {k : Nat} (ha : k < a.length)
    (hb : k < b.length) (d : α) :
    (List.zipWith f a b).getD k d = f (a.getD k d) (b.getD k d) := by
  rw [List.getD_eq_getElem _ _ ha, List.getD_eq_getElem _ _ hb,
    List.getD_eq_getElem _ _ (by rw [List.length_zipWith]; omega), List.getElem_zipWith]

omit [Scalar α] in
/-- Points of equal length that are combined axis by axis have as many coordinates. -/
theorem length_foldl_zipWith {f : α → α → α} {dim : Nat} {first : List α} {rest : List (List α)}
    (h : ∀ p ∈ first :: rest, p.length = dim) :
    (rest.foldl (List.zipWith f) first).length = dim := by
  induction rest generalizing first with
  | nil => exact h first List.mem_cons_self
  | cons p rest ih =>
    rw [List.foldl_cons]
    refine ih fun q hq => ?_
    obtain rfl | hq := List.mem_cons.1 hq
    · rw [List.length_zipWith, h first List.mem_cons_self, h p (by simp), Nat.min_self]
    · exact h q (List.mem_cons_of_mem _ (List.mem_cons_of_mem _ hq))

/-- The upper corner of rows of equal length has as many coordinates. -/
theorem length_upperCorner {dim : Nat} {rows : List (List α)} (hne : rows ≠ [])
    (h : ∀ row ∈ rows, row.length = dim) : (upperCorner rows).length = dim := by
  obtain ⟨first, rest, rfl⟩ := List.exists_cons_of_ne_nil hne
  exact length_foldl_zipWith h

/-- So has the lower corner. -/
theorem length_lowerCorner {dim : Nat} {rows : List (List α)} (hne : rows ≠ [])
    (h : ∀ row ∈ rows, row.length = dim) : (lowerCorner rows).length = dim := by
  obtain ⟨first, rest, rfl⟩ := List.exists_cons_of_ne_nil hne
  exact length_foldl_zipWith h

/-! ## The greatest coordinate -/

/-- **Points with coordinates of a class**, all of one length. -/
def ArePoints (known : α → Prop) (dim : Nat) (points : List (List α)) : Prop :=
  ∀ p ∈ points, p.length = dim ∧ ∀ x ∈ p, known x

variable [LinearOrder κ]

/-- **The greatest coordinate of some points on an axis**, by keys: it is one of theirs,
and none has a greater key. -/
structure IsGreatestOn (key : α → κ) (points : List (List α)) (k : Nat) (x : α) : Prop where
  /-- A point has this coordinate. -/
  exists_eq : ∃ p ∈ points, p.getD k 0 = x
  /-- No point has a greater one. -/
  key_le : ∀ p ∈ points, key (p.getD k 0) ≤ key x

namespace IsGreatestOn

variable {key : α → κ} {known : α → Prop} {points others : List (List α)} {dim k : Nat} {x y : α}

/-- A point alone has its own coordinates. -/
theorem singleton (p : List α) : IsGreatestOn key [p] k (p.getD k 0) := by
  refine ⟨⟨p, List.mem_singleton_self p, rfl⟩, fun q hq => ?_⟩
  rw [List.mem_singleton.1 hq]

/-- The greatest coordinate is one of the class. -/
theorem isKnown (h : IsGreatestOn key points k x) (hpoints : ArePoints known dim points)
    (hk : k < dim) : known x := by
  obtain ⟨p, hp, rfl⟩ := h.exists_eq
  obtain ⟨hlen, hknown⟩ := hpoints p hp
  rw [← hlen] at hk
  rw [List.getD_eq_getElem _ _ hk]
  exact hknown _ (List.getElem_mem hk)

/-- In which order and how often the points are listed does not matter. -/
theorem congr (h : IsGreatestOn key points k x) (hmem : ∀ p, p ∈ points ↔ p ∈ others) :
    IsGreatestOn key others k x := by
  obtain ⟨p, hp, hx⟩ := h.exists_eq
  exact ⟨⟨p, (hmem p).1 hp, hx⟩, fun q hq => h.key_le q ((hmem q).2 hq)⟩

/-- **The greater of two greatest coordinates** is that of all points. -/
theorem append (h : IsGreatestOn key points k x) (h' : IsGreatestOn key others k y) :
    IsGreatestOn key (points ++ others) k (if key x < key y then y else x) := by
  obtain ⟨p, hp, hx⟩ := h.exists_eq
  obtain ⟨q, hq, hy⟩ := h'.exists_eq
  split
  · rename_i hlt
    refine ⟨⟨q, List.mem_append_right _ hq, hy⟩, fun p hp => ?_⟩
    obtain hp | hp := List.mem_append.1 hp
    · exact le_of_lt (lt_of_le_of_lt (h.key_le p hp) hlt)
    · exact h'.key_le p hp
  · rename_i hle
    refine ⟨⟨p, List.mem_append_left _ hp, hx⟩, fun p hp => ?_⟩
    obtain hp | hp := List.mem_append.1 hp
    · exact h.key_le p hp
    · exact le_trans (h'.key_le p hp) (not_lt.1 hle)

end IsGreatestOn

/-- **A corner of some points**: combining them axis by axis, by the one of two
coordinates with the greater key, gives the greatest coordinates. -/
theorem isGreatestOn_foldl {key : α → κ} {known : α → Prop} {choose : α → α → α}
    (hchoose : ∀ a b, known a → known b → choose a b = if key a < key b then b else a)
    {dim : Nat} {first : List α} {rest : List (List α)}
    (h : ArePoints known dim (first :: rest)) {k : Nat} (hk : k < dim) :
    IsGreatestOn key (first :: rest) k ((rest.foldl (List.zipWith choose) first).getD k 0) := by
  -- by induction from the right: the corner of the points so far, and one more
  induction rest using List.reverseRecOn with
  | nil => exact .singleton first
  | append_singleton rest p ih =>
    rw [← List.cons_append] at h ⊢
    have hbefore : ArePoints known dim (first :: rest) := fun q hq =>
      h q (List.mem_append_left _ hq)
    have hp : ArePoints known dim [p] := fun q hq => h q (List.mem_append_right _ hq)
    have hlen := length_foldl_zipWith (f := choose) fun q hq => (hbefore q hq).1
    have hlen' := (hp p (List.mem_singleton_self p)).1
    have hcorner := ih hbefore
    have hsingle : IsGreatestOn key [p] k (p.getD k 0) := .singleton p
    rw [List.foldl_concat, getD_zipWith (by rwa [hlen]) (by rwa [hlen']),
      hchoose _ _ (hcorner.isKnown hbefore hk) (hsingle.isKnown hp hk)]
    exact hcorner.append hsingle

section Keyed

variable {key : α → κ} {known : α → Prop} {dim k : Nat}

/-- **The upper corner has the greatest coordinates.** -/
theorem isGreatestOn_upperCorner (hkeyed : IsKeyed key known) {points : List (List α)}
    (hne : points ≠ []) (h : ArePoints known dim points) (hk : k < dim) :
    IsGreatestOn key points k ((upperCorner points).getD k 0) := by
  obtain ⟨first, rest, rfl⟩ := List.exists_cons_of_ne_nil hne
  exact isGreatestOn_foldl (fun a b ha hb => hkeyed.maxNum_eq ha hb) h hk

/-- **The lower corner has the smallest coordinates.** -/
theorem isGreatestOn_lowerCorner (hkeyed : IsKeyed key known) {points : List (List α)}
    (hne : points ≠ []) (h : ArePoints known dim points) (hk : k < dim) :
    IsGreatestOn (OrderDual.toDual ∘ key) points k ((lowerCorner points).getD k 0) := by
  obtain ⟨first, rest, rfl⟩ := List.exists_cons_of_ne_nil hne
  exact isGreatestOn_foldl (fun a b ha hb => hkeyed.minNum_eq ha hb) h hk

end Keyed

end ParetoSelection
