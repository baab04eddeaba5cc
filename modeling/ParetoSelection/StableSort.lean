/-!
# A stable sort that computes by unfolding

Ranking sorts again and again: rows lexicographically, members of a front by
one objective, survivors by crowding distance. Ties keep their order in all of
these, and results show it.

`stableSort` sorts up to `insertionLimit` elements by insertion. It halves a
longer list, sorts the halves and merges them, the left one first on ties. Where
elements can be put in an order at all, one way is as good as the other, and
both are the sort of the standard library (`stableSort_eq_mergeSort`): the
result is ascending (`pairwise_stableSort`), and elements that tie keep their
order (`filter_stableSort`).

Rows of different lengths, compared on the objectives they share, may go round
in a circle. Nothing puts these in order; a few of them end where insertion
leaves them.
-/

namespace ParetoSelection

variable {ι : Type}

/-! ## Insertion -/

/-- The most elements that are sorted by insertion. -/
def insertionLimit : Nat := 20

/-- Puts an element into a list that has the largest element first, in front of
the first one that it does not precede. -/
def insertDescending (le : ι → ι → Bool) (x : ι) : (sorted : List ι) → List ι
  | [] => [x]
  | y :: sorted =>
    if le y x then x :: y :: sorted else y :: insertDescending le x sorted

/-- The elements of a list in ascending order, by insertion of one after the
other. -/
def insertionSort (le : ι → ι → Bool) (xs : List ι) : List ι :=
  (xs.foldl (fun sorted x => insertDescending le x sorted) []).reverse

/-- Insertion adds the element. -/
theorem insertDescending_perm (le : ι → ι → Bool) (x : ι) (sorted : List ι) :
    (insertDescending le x sorted).Perm (x :: sorted) := by
  fun_induction insertDescending le x sorted with
  | case1 => rfl
  | case2 => rfl
  | case3 y sorted h ih => exact (ih.cons y).trans (.swap x y sorted)

/-- Sorting by insertion rearranges. -/
theorem insertionSort_perm (le : ι → ι → Bool) (xs : List ι) :
    (insertionSort le xs).Perm xs := by
  have key : ∀ (xs sorted : List ι),
      (xs.foldl (fun sorted x => insertDescending le x sorted) sorted).Perm
        (xs.reverse ++ sorted) := by
    intro xs
    induction xs with
    | nil => intro sorted; simp
    | cons x xs ih =>
      intro sorted
      simp only [List.foldl_cons, List.reverse_cons, List.append_assoc, List.singleton_append]
      exact (ih _).trans ((insertDescending_perm le x sorted).append_left _)
  have h := key xs []
  rw [List.append_nil] at h
  exact (List.reverse_perm _).trans (h.trans (List.reverse_perm xs))

/-- Insertion keeps the list sorted. -/
theorem pairwise_insertDescending {le : ι → ι → Bool}
    (trans : ∀ a b c, le a b → le b c → le a c) (total : ∀ a b, le a b || le b a)
    (x : ι) {sorted : List ι} (h : sorted.Pairwise fun a b => le b a) :
    (insertDescending le x sorted).Pairwise fun a b => le b a := by
  fun_induction insertDescending le x sorted with
  | case1 => simp
  | case2 y sorted hyx =>
    refine List.pairwise_cons.2 ⟨fun z hz => ?_, h⟩
    rcases List.mem_cons.1 hz with rfl | hz
    · exact hyx
    · exact trans _ _ _ ((List.pairwise_cons.1 h).1 z hz) hyx
  | case3 y sorted hyx ih =>
    have hxy : le x y := by simpa [hyx] using total x y
    obtain ⟨hy, h⟩ := List.pairwise_cons.1 h
    refine List.pairwise_cons.2 ⟨fun z hz => ?_, ih h⟩
    rcases List.mem_cons.1 ((insertDescending_perm le x sorted).mem_iff.1 hz) with rfl | hz
    · exact hxy
    · exact hy z hz

/-- Sorting by insertion sorts. -/
theorem pairwise_insertionSort {le : ι → ι → Bool}
    (trans : ∀ a b c, le a b → le b c → le a c) (total : ∀ a b, le a b || le b a)
    (xs : List ι) : (insertionSort le xs).Pairwise fun a b => le a b := by
  have key : ∀ (xs sorted : List ι), (sorted.Pairwise fun a b => le b a) →
      (xs.foldl (fun sorted x => insertDescending le x sorted) sorted).Pairwise
        fun a b => le b a := by
    intro xs
    induction xs with
    | nil => exact fun _ h => h
    | cons x xs ih => exact fun _ h => ih _ (pairwise_insertDescending trans total x h)
  exact List.pairwise_reverse.2 (key xs [] .nil)

/-- An element goes in front of all that it ties with. -/
theorem filter_insertDescending {le : ι → ι → Bool} {p : ι → Bool}
    (tie : ∀ a b, p a → p b → le a b) (x : ι) (sorted : List ι) :
    (insertDescending le x sorted).filter p = [x].filter p ++ sorted.filter p := by
  fun_induction insertDescending le x sorted with
  | case1 => simp
  | case2 => rw [← List.filter_append, List.singleton_append]
  | case3 y sorted h ih =>
    by_cases hx : p x
    · have hy : ¬ p y := fun hy => h (tie y x hy hx)
      simpa [List.filter_cons, hx, hy] using ih
    · simp [List.filter_cons, ih, hx]

/-- Sorting by insertion keeps the order of elements that tie. -/
theorem filter_insertionSort {le : ι → ι → Bool} {p : ι → Bool}
    (tie : ∀ a b, p a → p b → le a b) (xs : List ι) :
    (insertionSort le xs).filter p = xs.filter p := by
  have key : ∀ (xs sorted : List ι),
      (xs.foldl (fun sorted x => insertDescending le x sorted) sorted).filter p
        = (xs.filter p).reverse ++ sorted.filter p := by
    intro xs
    induction xs with
    | nil => simp
    | cons x xs ih =>
      intro sorted
      rw [List.foldl_cons, ih, filter_insertDescending tie]
      by_cases hx : p x <;> simp [hx]
  rw [insertionSort, List.filter_reverse, key]
  simp

/-! ## Merging -/

/-- The elements of two lists in one, each time the smaller of the two first
ones; on a tie, the one on the left. -/
def mergeSorted (le : ι → ι → Bool) : (left right : List ι) → List ι
  | [], right => right
  | left, [] => left
  | x :: left, y :: right =>
    if le x y then x :: mergeSorted le left (y :: right)
    else y :: mergeSorted le (x :: left) right
termination_by left right => left.length + right.length

/-- Merging is the merging of the standard library. -/
theorem mergeSorted_eq_merge (le : ι → ι → Bool) (left right : List ι) :
    mergeSorted le left right = left.merge right le := by
  fun_induction mergeSorted le left right with
  | case1 => simp
  | case2 => simp
  | case3 x left y right h ih => rw [List.cons_merge_cons, if_pos h, ih]
  | case4 x left y right h ih => rw [List.cons_merge_cons, if_neg h, ih]

/-- Of elements that tie, merging takes those on the left first. -/
theorem filter_mergeSorted {le : ι → ι → Bool} (trans : ∀ a b c, le a b → le b c → le a c)
    {p : ι → Bool} (tie : ∀ a b, p a → p b → le a b) (left right : List ι)
    (h : left.Pairwise fun a b => le a b) :
    (mergeSorted le left right).filter p = left.filter p ++ right.filter p := by
  fun_induction mergeSorted le left right with
  | case1 => simp
  | case2 => simp
  | case3 x left y right hxy ih =>
    have := ih (List.pairwise_cons.1 h).2
    by_cases hx : p x <;> simp [List.filter_cons, hx, this]
  | case4 x left y right hxy ih =>
    have ih := ih h
    by_cases hy : p y
    · have none : (x :: left).filter p = [] := by
        refine List.filter_eq_nil_iff.2 fun z hz hpz => hxy ?_
        have hzy := tie z y hpz hy
        rcases List.mem_cons.1 hz with rfl | hz
        · exact hzy
        · exact trans _ _ _ ((List.pairwise_cons.1 h).1 z hz) hzy
      rw [List.filter_cons_of_pos hy, ih, none, List.filter_cons_of_pos hy]
      rfl
    · rw [List.filter_cons_of_neg hy, ih, List.filter_cons_of_neg hy]

/-! ## The sort -/

/-- **The elements of a list in ascending order**, ties in the order in which
they come. -/
def stableSort (le : ι → ι → Bool) (xs : List ι) : List ι :=
  if xs.length ≤ insertionLimit then insertionSort le xs
  else
    let half := (xs.length + 1) / 2
    mergeSorted le (stableSort le (xs.take half)) (stableSort le (xs.drop half))
termination_by xs.length
decreasing_by all_goals grind [insertionLimit]

/-- **Sorting rearranges**, whatever the comparison. -/
theorem stableSort_perm (le : ι → ι → Bool) (xs : List ι) : (stableSort le xs).Perm xs := by
  fun_induction stableSort le xs with
  | case1 xs h => exact insertionSort_perm le xs
  | case2 xs h half ihl ihr =>
    rw [mergeSorted_eq_merge]
    refine (List.merge_perm_append le).trans ((ihl.append ihr).trans ?_)
    rw [List.take_append_drop]

/-- **Sorting sorts.** -/
theorem pairwise_stableSort {le : ι → ι → Bool}
    (trans : ∀ a b c, le a b → le b c → le a c) (total : ∀ a b, le a b || le b a)
    (xs : List ι) : (stableSort le xs).Pairwise fun a b => le a b := by
  fun_induction stableSort le xs with
  | case1 xs h => exact pairwise_insertionSort trans total xs
  | case2 xs h half ihl ihr =>
    rw [mergeSorted_eq_merge]
    exact List.pairwise_merge trans total _ _ ihl ihr

/-- **Elements that tie keep their order.** -/
theorem filter_stableSort {le : ι → ι → Bool}
    (trans : ∀ a b c, le a b → le b c → le a c) (total : ∀ a b, le a b || le b a)
    {p : ι → Bool} (tie : ∀ a b, p a → p b → le a b) (xs : List ι) :
    (stableSort le xs).filter p = xs.filter p := by
  fun_induction stableSort le xs with
  | case1 xs h => exact filter_insertionSort tie xs
  | case2 xs h half ihl ihr =>
    rw [filter_mergeSorted trans tie _ _ (pairwise_stableSort trans total _), ihl, ihr,
      ← List.filter_append, List.take_append_drop]

/-- Two ascending lists in which elements that tie are in the same order are
the same. -/
theorem eq_of_filter_ties_eq {le : ι → ι → Bool} (refl : ∀ a, le a a) {xs ys : List ι}
    (hx : xs.Pairwise fun a b => le a b) (hy : ys.Pairwise fun a b => le a b)
    (ties : ∀ a, (xs.filter fun b => le a b && le b a) = ys.filter fun b => le a b && le b a) :
    xs = ys := by
  induction xs generalizing ys with
  | nil =>
    match ys with
    | [] => rfl
    | y :: ys => simpa [refl] using ties y
  | cons x xs ih =>
    match ys with
    | [] => simpa [refl] using ties x
    | y :: ys =>
      have tied : le x y && le y x := by
        have hxy : y ∈ (x :: xs).filter fun b => le y b && le b y := by
          rw [ties y]; simp [refl]
        have hyx : x ∈ (y :: ys).filter fun b => le x b && le b x := by
          rw [← ties x]; simp [refl]
        simp only [List.mem_filter, Bool.and_eq_true] at hxy hyx
        have hxy' : le x y := by
          rcases List.mem_cons.1 hxy.1 with rfl | h
          · exact refl _
          · exact (List.pairwise_cons.1 hx).1 y h
        have hyx' : le y x := by
          rcases List.mem_cons.1 hyx.1 with rfl | h
          · exact refl _
          · exact (List.pairwise_cons.1 hy).1 x h
        simp [hxy', hyx']
      have same : x = y := by
        have h := ties x
        rw [List.filter_cons_of_pos (by simp [refl])] at h
        rw [List.filter_cons_of_pos (p := fun b => le x b && le b x) tied] at h
        exact (List.cons.inj h).1
      subst same
      congr 1
      refine ih (List.pairwise_cons.1 hx).2 (List.pairwise_cons.1 hy).2 fun a => ?_
      have h := ties a
      simp only [List.filter_cons] at h
      split at h
      · exact (List.cons.inj h).2
      · exact h

/-- **The sort is the sort of the standard library**, where elements can be
put in an order. -/
theorem stableSort_eq_mergeSort {le : ι → ι → Bool}
    (trans : ∀ a b c, le a b → le b c → le a c) (total : ∀ a b, le a b || le b a)
    (xs : List ι) : stableSort le xs = xs.mergeSort le := by
  have refl : ∀ a, le a a := fun a => by simpa using total a a
  refine eq_of_filter_ties_eq refl (pairwise_stableSort trans total xs)
    (List.pairwise_mergeSort trans total xs) fun a => ?_
  have tie : ∀ b c, (le a b && le b a) → (le a c && le c a) → le b c := by
    intro b c hb hc
    simp only [Bool.and_eq_true] at hb hc
    exact trans _ _ _ hb.2 hc.1
  rw [filter_stableSort trans total tie]
  have sub := (List.sublist_mergeSort trans total
    (List.pairwise_of_forall_mem_list fun b hb c hc =>
      tie b c (List.mem_filter.1 hb).2 (List.mem_filter.1 hc).2)
    (List.filter_sublist (p := fun b => le a b && le b a) (l := xs))).filter
      fun b => le a b && le b a
  rw [List.filter_filter] at sub
  simp only [Bool.and_self] at sub
  exact sub.eq_of_length ((List.mergeSort_perm xs le).filter _).length_eq.symm

end ParetoSelection
