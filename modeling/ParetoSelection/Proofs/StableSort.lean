import Mathlib.Order.Lattice
import ParetoSelection.StableSort

/-!
# Sorting what can be ordered among itself

A comparison of candidates need only make sense for the candidates that are
sorted: that it is transitive and total everywhere is more than a comparison of
rows can promise, when rows may be missing. Sorting never compares anything but
elements of the list, so that it commutes with renaming them
(`stableSort_map`), and what holds of a comparison that is an order everywhere
holds of one that is an order on the list (`pairwise_stableSort_of_mem`).

Two elements of a sorted list are in order in two respects, which
`pairwise_ties_stableSort` has together: by the comparison, and where that does not
tell them apart by the places that they had before. If the comparison is that of keys from
a linear order it is an order everywhere (`pairwise_stableSort_of_key`).
-/

namespace ParetoSelection

variable {ι κ : Type}

/-- Insertion commutes with renaming. -/
theorem insertDescending_map (le : κ → κ → Bool) (f : ι → κ) (x : ι) (sorted : List ι) :
    insertDescending le (f x) (sorted.map f)
      = (insertDescending (fun a b => le (f a) (f b)) x sorted).map f := by
  induction sorted with
  | nil => rfl
  | cons y sorted ih =>
    rw [List.map_cons, insertDescending, insertDescending]
    split
    · rw [List.map_cons, List.map_cons]
    · rw [List.map_cons, ih]

/-- Sorting by insertion commutes with renaming. -/
theorem insertionSort_map (le : κ → κ → Bool) (f : ι → κ) (xs : List ι) :
    insertionSort le (xs.map f) = (insertionSort (fun a b => le (f a) (f b)) xs).map f := by
  have key : ∀ sorted : List ι,
      (xs.map f).foldl (fun sorted x => insertDescending le x sorted) (sorted.map f)
        = (xs.foldl (fun sorted x => insertDescending (fun a b => le (f a) (f b)) x sorted)
            sorted).map f := by
    induction xs with
    | nil => exact fun _ => rfl
    | cons x xs ih =>
      intro sorted
      rw [List.map_cons, List.foldl_cons, List.foldl_cons, insertDescending_map]
      exact ih _
  unfold insertionSort
  rw [List.map_reverse, ← key []]
  rfl

/-- Merging commutes with renaming. -/
theorem mergeSorted_map (le : κ → κ → Bool) (f : ι → κ) (left right : List ι) :
    mergeSorted le (left.map f) (right.map f)
      = (mergeSorted (fun a b => le (f a) (f b)) left right).map f := by
  fun_induction mergeSorted (fun a b => le (f a) (f b)) left right with
  | case1 right => rw [List.map_nil, mergeSorted]
  | case2 left hleft =>
    cases left with
    | nil => exact absurd rfl (hleft ·)
    | cons x left => rw [List.map_cons, List.map_nil, mergeSorted]; exact List.cons_ne_nil _ _
  | case3 x left y right h ih =>
    rw [List.map_cons, List.map_cons, mergeSorted, if_pos h, ← List.map_cons, ih, List.map_cons]
  | case4 x left y right h ih =>
    rw [List.map_cons, List.map_cons, mergeSorted, if_neg h, ← List.map_cons, ih, List.map_cons]

/-- **Sorting commutes with renaming.** -/
theorem stableSort_map (le : κ → κ → Bool) (f : ι → κ) (xs : List ι) :
    stableSort le (xs.map f) = (stableSort (fun a b => le (f a) (f b)) xs).map f := by
  fun_induction stableSort (fun a b => le (f a) (f b)) xs with
  | case1 xs h =>
    rw [stableSort, List.length_map, if_pos h, insertionSort_map]
  | case2 xs h half ihl ihr =>
    rw [stableSort, List.length_map, if_neg h, ← mergeSorted_map, ← ihl, ← ihr, List.map_take,
      List.map_drop]

/-- Sorting a list is sorting its elements as members of the list. -/
theorem stableSort_eq_map_attach (le : ι → ι → Bool) (xs : List ι) :
    stableSort le xs
      = (stableSort (fun a b : {a // a ∈ xs} => le a.1 b.1) xs.attach).map Subtype.val := by
  rw [← stableSort_map le Subtype.val, List.attach_map_subtype_val]

/-- **Sorting sorts** as soon as the comparison is an order on the list. -/
theorem pairwise_stableSort_of_mem {le : ι → ι → Bool} {xs : List ι}
    (trans : ∀ a ∈ xs, ∀ b ∈ xs, ∀ c ∈ xs, le a b → le b c → le a c)
    (total : ∀ a ∈ xs, ∀ b ∈ xs, le a b || le b a) :
    (stableSort le xs).Pairwise fun a b => le a b := by
  rw [stableSort_eq_map_attach, List.pairwise_map]
  exact pairwise_stableSort (fun a b c => trans a.1 a.2 b.1 b.2 c.1 c.2)
    (fun a b => total a.1 a.2 b.1 b.2) xs.attach

/-- **Elements that tie keep their order** as soon as the comparison is an order on the
list. -/
theorem filter_stableSort_of_mem {le : ι → ι → Bool} {xs : List ι}
    (trans : ∀ a ∈ xs, ∀ b ∈ xs, ∀ c ∈ xs, le a b → le b c → le a c)
    (total : ∀ a ∈ xs, ∀ b ∈ xs, le a b || le b a) {p : ι → Bool}
    (tie : ∀ a ∈ xs, ∀ b ∈ xs, p a → p b → le a b) :
    (stableSort le xs).filter p = xs.filter p := by
  rw [stableSort_eq_map_attach, List.filter_map,
    filter_stableSort (fun a b c => trans a.1 a.2 b.1 b.2 c.1 c.2)
      (fun a b => total a.1 a.2 b.1 b.2) (fun a b => tie a.1 a.2 b.1 b.2),
    ← List.filter_map, List.attach_map_subtype_val]

/-- **Whoever comes first after sorting is not above, and on a tie came first before.** -/
theorem pairwise_ties_stableSort {le : ι → ι → Bool}
    (trans : ∀ a b c, le a b → le b c → le a c) (total : ∀ a b, le a b || le b a)
    (xs : List ι) :
    (stableSort le xs).Pairwise fun a b => le a b ∧ (le b a → [a, b].Sublist xs) := by
  refine List.pairwise_iff_forall_sublist.2 fun {a b} hsub => ?_
  have hab : le a b :=
    List.pairwise_iff_forall_sublist.1 (pairwise_stableSort trans total xs) hsub
  refine ⟨hab, fun hba => ?_⟩
  -- those who tie with `a` have kept their order, and `b` is one of them
  have hties : (stableSort le xs).filter (fun c => le a c && le c a)
      = xs.filter (fun c => le a c && le c a) := by
    refine filter_stableSort trans total (fun c d hc hd => ?_) xs
    exact trans c a d (Bool.and_eq_true_iff.1 hc).2 (Bool.and_eq_true_iff.1 hd).1
  have haa : le a a := by simpa using total a a
  have hpair : [a, b].filter (fun c => le a c && le c a) = [a, b] :=
    List.filter_eq_self.2 (List.forall_mem_cons.2 ⟨Bool.and_eq_true_iff.2 ⟨haa, haa⟩,
      List.forall_mem_singleton.2 (Bool.and_eq_true_iff.2 ⟨hab, hba⟩)⟩)
  have hfilter := hsub.filter fun c => le a c && le c a
  rw [hpair, hties] at hfilter
  exact hfilter.trans List.filter_sublist

/-- **Elements that are sorted by keys** are in order of the keys, and with equal keys in the
order in which they were before. -/
theorem pairwise_stableSort_of_key {κ : Type} [LinearOrder κ] {le : ι → ι → Bool} (f : ι → κ)
    (h : ∀ a b, le a b = true ↔ f a ≤ f b) (xs : List ι) :
    (stableSort le xs).Pairwise fun a b => f a < f b ∨ f a = f b ∧ [a, b].Sublist xs := by
  have htrans (a b c : ι) (hab : le a b = true) (hbc : le b c = true) : le a c = true :=
    (h a c).2 (le_trans ((h a b).1 hab) ((h b c).1 hbc))
  have htotal (a b : ι) : (le a b || le b a) = true := by
    rw [Bool.or_eq_true, h, h]
    exact le_total _ _
  refine (pairwise_ties_stableSort htrans htotal xs).imp fun {a b} hab => ?_
  obtain hlt | heq := lt_or_eq_of_le ((h a b).1 hab.1)
  · exact Or.inl hlt
  · exact Or.inr ⟨heq, hab.2 ((h b a).2 (le_of_eq heq.symm))⟩

/-- Numbers are sorted by size. -/
theorem pairwise_le_stableSort (xs : List Nat) :
    (stableSort (fun i j => i ≤ j) xs).Pairwise (· ≤ ·) := by
  have htrans (a b c : Nat) (hab : decide (a ≤ b)) (hbc : decide (b ≤ c)) : decide (a ≤ c) :=
    decide_eq_true (Nat.le_trans (of_decide_eq_true hab) (of_decide_eq_true hbc))
  have htotal (a b : Nat) : decide (a ≤ b) || decide (b ≤ a) := by
    rw [Bool.or_eq_true, decide_eq_true_iff, decide_eq_true_iff]
    exact Nat.le_total a b
  exact (pairwise_stableSort htrans htotal xs).imp of_decide_eq_true

end ParetoSelection
