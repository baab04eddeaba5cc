import ParetoSelection.Maxima.Checked
import ParetoSelection.Proofs.Access
import ParetoSelection.Proofs.Maxima.Window

/-!
# Every finder fails where it is not defined

A finder that checks what it reads finds what the finder finds that does not, if everything
that it comes to is there; otherwise it fails (`Finder.search_eq_find`). So `isDefinedOn` is
not one condition beside the finders but the condition under which none of their accesses
fails.

Of the four, divide and conquer is the one where this takes an argument. It asks for the first
objectives of a candidate only where the candidate is compared, and the comparisons of a half
depend on what the other half has left. But a half always leaves somebody, so that the first
comparison of everybody takes place.
-/

namespace ParetoSelection

variable {α : Type} [Scalar α] (m : FitnessMatrix α)

namespace FitnessMatrix

omit [Scalar α] in
/-- A candidate that is there is read. -/
theorem readAt_eq_row {i : Nat} (hi : i < m.size) : readAt m i = .ok (m.row i) :=
  readAt_eq_getD hi []

variable {m}

/-! ## One objective -/

omit [Scalar α] in
/-- The first objective of a candidate is there or not. -/
theorem firstOf_cases (i : Nat) :
    m.firstOf i = .error .outOfRange ∧ ¬ (i < m.size ∧ m.row i ≠ [])
      ∨ (∃ x, m.firstOf i = .ok x) ∧ i < m.size ∧ m.row i ≠ [] := by
  by_cases hi : i < m.size
  · rw [firstOf, m.readAt_eq_row hi, ok_bind]
    cases hrow : m.row i with
    | nil => exact .inl ⟨rfl, fun h => h.2 rfl⟩
    | cons x xs => exact .inr ⟨⟨x, rfl⟩, hi, List.cons_ne_nil _ _⟩
  · refine .inl ⟨?_, fun h => hi h.1⟩
    rw [firstOf, readAt_eq_error (Nat.le_of_not_lt hi)]
    rfl

/-- A first objective that is there is read. -/
theorem firstOf_eq_ok {i : Nat} (hi : i < m.size) (hne : m.row i ≠ []) :
    m.firstOf i = .ok (Maxima.firstObjective m.row i) := by
  obtain ⟨x, xs, hrow⟩ := List.exists_cons_of_ne_nil hne
  rw [firstOf, m.readAt_eq_row hi, Maxima.firstObjective, hrow]
  rfl

/-- **The finder for one objective** reads the first objective of everybody. -/
theorem keepTied_eq_find (candidates : List Nat) :
    m.keepTied candidates = Finder.oneObjective.find m candidates := by
  have hdefined : Finder.oneObjective.isDefinedOn m candidates = true
      ↔ ∀ i ∈ candidates, i < m.size ∧ m.row i ≠ [] := by
    show candidates.all (fun i => i < m.size && !(m.row i).isEmpty) = true ↔ _
    simp [List.all_eq_true]
  by_cases hall : ∀ i ∈ candidates, i < m.size ∧ m.row i ≠ []
  · have hfirst : ∀ i ∈ candidates, m.firstOf i = .ok (Maxima.firstObjective m.row i) :=
      fun i hi => firstOf_eq_ok (hall i hi).1 (hall i hi).2
    have hrun : Finder.oneObjective.run m.row candidates = candidates.filter fun i =>
        isEqualWithin defaultTolerance ((candidates.map (Maxima.firstObjective m.row)).foldl
          Scalar.maxNum Scalar.negInfinity) (Maxima.firstObjective m.row i) := by
      rw [List.foldl_map]
      rfl
    rw [Finder.find, if_pos (hdefined.2 hall), keepTied, mapM_eq_ok hfirst, hrun]
    refine keepIf_eq_ok fun i hi => ?_
    rw [hfirst i hi]
    rfl
  · rw [Finder.find, if_neg (mt hdefined.1 hall), keepTied, mapM_eq_error (e := .outOfRange)]
    · rfl
    · exact fun i _ => (m.firstOf_cases i).imp And.left And.left
    · obtain ⟨i, hi, hnot⟩ : ∃ i ∈ candidates, ¬ (i < m.size ∧ m.row i ≠ []) := by
        by_contra hnone
        exact hall fun i hi => by_contra fun hnot => hnone ⟨i, hi, hnot⟩
      obtain ⟨herror, -⟩ | ⟨-, hthere⟩ := m.firstOf_cases i
      · exact ⟨i, hi, herror⟩
      · exact absurd hthere hnot

/-! ## Sorting -/

/-- Sorting reads everybody, unless there is nobody to compare with. -/
theorem sortRows_eq_ok {candidates : List Nat} (h : m.IsReadable candidates) :
    m.sortRows candidates = .ok (Maxima.descending m.row candidates) := by
  unfold sortRows
  by_cases htwo : 2 ≤ candidates.length
  · have hall := h.resolve_left (by omega)
    rw [if_pos htwo, mapM_eq_ok fun i hi => m.readAt_eq_row (hall i hi)]
    rfl
  · rw [if_neg htwo]
    have hperm : (Maxima.descending m.row candidates).Perm candidates := stableSort_perm _ _
    match candidates, htwo with
    | [], _ => rw [hperm.eq_nil]; rfl
    | [i], _ => rw [List.perm_singleton.1 hperm]; rfl
    | _ :: _ :: _, htwo => exact absurd (by simp) htwo

/-- It fails if somebody is not there. -/
theorem sortRows_eq_error {candidates : List Nat} (h : ¬ m.IsReadable candidates) :
    m.sortRows candidates = .error .outOfRange := by
  rw [IsReadable, not_or] at h
  obtain ⟨hlen, hnot⟩ := h
  unfold sortRows
  rw [if_pos (by omega), mapM_eq_error (e := .outOfRange)]
  · rfl
  · intro i _
    by_cases hi : i < m.size
    · exact .inr ⟨_, m.readAt_eq_row hi⟩
    · exact .inl (readAt_eq_error (Nat.le_of_not_lt hi))
  · obtain ⟨i, hi, hge⟩ : ∃ i ∈ candidates, m.size ≤ i := by
      by_contra hnone
      exact hnot fun i hi => Nat.lt_of_not_le fun hge => hnone ⟨i, hi, hge⟩
    exact ⟨i, hi, readAt_eq_error hge⟩

/-- Everybody who is sorted is there, if there is anybody to compare with. -/
theorem IsReadable.descending {candidates : List Nat} (h : m.IsReadable candidates) :
    m.IsReadable (Maxima.descending m.row candidates) :=
  h.of_subperm (stableSort_perm _ _).subperm

/-! ## Filtering -/

/-- A candidate is kept as it is where nothing is checked. -/
theorem keepUndominated_eq_ok {kept : List Nat} {i : Nat} (h : m.IsReadable (i :: kept)) :
    m.keepUndominated kept i
      = .ok (if Maxima.isDominatedBy m.row kept i then kept else kept ++ [i]) := by
  have hany : anyOf (fun k => return Dominance.compare (← readAt m k) (← readAt m i) = .left) kept
      = .ok (Maxima.isDominatedBy m.row kept i) := by
    refine anyOf_eq_ok fun k hk => ?_
    have hall := h.resolve_left fun hlen => by
      have hpos := List.length_pos_of_mem hk
      rw [List.length_cons] at hlen
      omega
    rw [m.readAt_eq_row (hall k (List.mem_cons_of_mem i hk)),
      m.readAt_eq_row (hall i List.mem_cons_self)]
    rfl
  rw [keepUndominated, hany]
  rfl

/-- The filter along a list keeps whom it keeps where nothing is checked. -/
theorem foldlM_keepUndominated {sorted kept : List Nat} (h : m.IsReadable (kept ++ sorted)) :
    sorted.foldlM m.keepUndominated kept = .ok (sorted.foldl
      (fun kept i => if Maxima.isDominatedBy m.row kept i then kept else kept ++ [i]) kept) := by
  induction sorted generalizing kept with
  | nil => rfl
  | cons i sorted ih =>
    have hone : m.IsReadable (i :: kept) :=
      h.of_subperm ((List.perm_append_singleton i kept).symm.subperm.trans
        (List.append_cons kept i sorted ▸ (List.sublist_append_left _ sorted).subperm))
    rw [List.foldlM_cons, keepUndominated_eq_ok hone, List.foldl_cons]
    refine ih (h.of_subperm ?_)
    split
    · exact (List.Sublist.append_left (List.sublist_cons_self i sorted) kept).subperm
    · rw [← List.append_cons]

/-- **The finder that filters** reads everybody, unless there is nobody to compare with. -/
theorem search_sortFilter_eq_find (candidates : List Nat) :
    Finder.sortFilter.search m candidates = Finder.sortFilter.find m candidates := by
  have hdefined : Finder.sortFilter.isDefinedOn m candidates = true ↔ m.IsReadable candidates :=
    m.isDefinedOn_best_iff candidates
  by_cases h : m.IsReadable candidates
  · rw [Finder.find, if_pos (hdefined.2 h), Finder.search, sortRows_eq_ok h]
    exact foldlM_keepUndominated h.descending
  · rw [Finder.find, if_neg (mt hdefined.1 h), Finder.search, sortRows_eq_error h]
    rfl

/-! ## Divide and conquer -/

/-- Two candidates are compared if both have a first objective. -/
theorem isDominatedFromAbove_eq_ok {lower upper : Nat} (hlower : lower < m.size)
    (hupper : upper < m.size) (hne : m.row lower ≠ []) (hne' : m.row upper ≠ []) :
    m.isDominatedFromAbove lower upper
      = .ok (Maxima.isDominatedFromAbove (m.row lower) (m.row upper)) := by
  rw [isDominatedFromAbove, m.readAt_eq_row hlower, m.readAt_eq_row hupper]
  obtain ⟨x, a, hrow⟩ := List.exists_cons_of_ne_nil hne
  obtain ⟨y, b, hrow'⟩ := List.exists_cons_of_ne_nil hne'
  rw [hrow, hrow']
  rfl

/-- The comparison fails if one of them has none. -/
theorem isDominatedFromAbove_eq_error {lower upper : Nat} (hlower : lower < m.size)
    (hupper : upper < m.size) (h : m.row lower = [] ∨ m.row upper = []) :
    m.isDominatedFromAbove lower upper = .error .outOfRange := by
  rw [isDominatedFromAbove, m.readAt_eq_row hlower, m.readAt_eq_row hupper]
  obtain hnil | hnil := h
  · rw [hnil]
    rfl
  · rw [hnil]
    cases m.row lower <;> rfl

/-- Of two fronts that are joined the first members are compared, which fails if one of them
has no first objective. -/
theorem keepIf_eq_error {lower upper : Nat} (rest others : List Nat) (hlower : lower < m.size)
    (hupper : upper < m.size) (h : m.row lower = [] ∨ m.row upper = []) :
    keepIf (fun i => return !(← anyOf (m.isDominatedFromAbove i) (upper :: others)))
      (lower :: rest) = .error .outOfRange := by
  rw [keepIf, anyOf, isDominatedFromAbove_eq_error hlower hupper h]
  rfl

/-- **Divide and conquer comes to the front** if everybody has a first objective. -/
theorem divide_eq_ok {sorted : List Nat} (h : ∀ i ∈ sorted, i < m.size ∧ m.row i ≠ []) :
    m.divide sorted = .ok (Maxima.ofSorted m.row sorted) := by
  fun_induction Maxima.ofSorted m.row sorted with
  | case1 sorted hle => rw [divide, if_pos hle]
  | case2 sorted hlt half ihupper ihlower =>
    have htake : ∀ i ∈ sorted.take half, i < m.size ∧ m.row i ≠ [] :=
      fun i hi => h i (List.mem_of_mem_take hi)
    have hdrop : ∀ i ∈ sorted.drop half, i < m.size ∧ m.row i ≠ [] :=
      fun i hi => h i (List.mem_of_mem_drop hi)
    have hkept : keepIf (fun i => return !(← anyOf (m.isDominatedFromAbove i)
          (Maxima.ofSorted m.row (sorted.take half))))
        (Maxima.ofSorted m.row (sorted.drop half))
        = .ok ((Maxima.ofSorted m.row (sorted.drop half)).filter fun i =>
          !(Maxima.ofSorted m.row (sorted.take half)).any fun k =>
            Maxima.isDominatedFromAbove (m.row i) (m.row k)) := by
      refine keepIf_eq_ok fun i hi => ?_
      have hi := hdrop i ((Maxima.ofSorted_sublist m.row _).subset hi)
      rw [anyOf_eq_ok fun k hk => ?_]
      · rfl
      · have hk := htake k ((Maxima.ofSorted_sublist m.row _).subset hk)
        exact isDominatedFromAbove_eq_ok hi.1 hk.1 hi.2 hk.2
    rw [divide, if_neg hlt, ihupper htake, ok_bind, ihlower hdrop, ok_bind, hkept]
    rfl

/-- What divide and conquer comes to with candidates that are there: a failure, or somebody, and
then everybody has a first objective or is alone. -/
theorem divide_cases {sorted : List Nat} (hlt : ∀ i ∈ sorted, i < m.size) (hne : sorted ≠ []) :
    m.divide sorted = .error .outOfRange
      ∨ (∃ i rest, m.divide sorted = .ok (i :: rest) ∧ i ∈ sorted)
        ∧ (sorted.length = 1 ∨ ∀ i ∈ sorted, m.row i ≠ []) := by
  fun_induction FitnessMatrix.divide m sorted with
  | case1 sorted hle =>
    obtain ⟨i, rest, rfl⟩ := List.exists_cons_of_ne_nil hne
    have hone : (i :: rest).length = 1 := Nat.le_antisymm hle (Nat.succ_pos _)
    exact .inr ⟨⟨i, rest, rfl, List.mem_cons_self⟩, .inl hone⟩
  | case2 sorted hlen ihupper ihlower =>
    have htakelen : (sorted.take (sorted.length / 2)).length = sorted.length / 2 := by
      rw [List.length_take]
      omega
    have hdroplen : (sorted.drop (sorted.length / 2)).length
        = sorted.length - sorted.length / 2 := List.length_drop
    obtain hupper | ⟨⟨u, us, hupper, hu⟩, htake⟩ := ihupper
      (fun i hi => hlt i (List.mem_of_mem_take hi)) (List.length_pos_iff.1 (by omega))
    · rw [hupper]
      exact .inl rfl
    obtain hlower | ⟨⟨l, ls, hlower, hl⟩, hdrop⟩ := ihlower
      (fun i hi => hlt i (List.mem_of_mem_drop hi)) (List.length_pos_iff.1 (by omega))
    · rw [hupper, hlower]
      exact .inl rfl
    have hu' := hlt u (List.mem_of_mem_take hu)
    have hl' := hlt l (List.mem_of_mem_drop hl)
    by_cases hfirst : m.row l = [] ∨ m.row u = []
    · rw [hupper, hlower]
      refine .inl ?_
      show (keepIf _ (l :: ls) >>= _) = _
      rw [keepIf_eq_error ls us hl' hu' hfirst]
      rfl
    -- somebody who is alone in a half is the first of its front
    rw [not_or] at hfirst
    have hrows (i : Nat) (hi : i ∈ sorted) : m.row i ≠ [] := by
      rw [← List.take_append_drop (sorted.length / 2) sorted, List.mem_append] at hi
      obtain hi | hi := hi
      · obtain hone | hall := htake
        · obtain ⟨j, hj⟩ := List.length_eq_one_iff.1 hone
          rw [hj, List.mem_singleton] at hi hu
          rw [hi, ← hu]
          exact hfirst.2
        · exact hall i hi
      · obtain hone | hall := hdrop
        · obtain ⟨j, hj⟩ := List.length_eq_one_iff.1 hone
          rw [hj, List.mem_singleton] at hi hl
          rw [hi, ← hl]
          exact hfirst.1
        · exact hall i hi
    have hok := divide_eq_ok fun i hi => ⟨hlt i hi, hrows i hi⟩
    obtain ⟨i, rest, hcons⟩ := List.exists_cons_of_ne_nil (Maxima.ofSorted_ne_nil m.row hne)
    rw [divide, if_neg hlen] at hok
    refine .inr ⟨⟨i, rest, hok.trans (congrArg _ hcons), ?_⟩, .inr hrows⟩
    exact (Maxima.ofSorted_sublist m.row sorted).subset (hcons ▸ List.mem_cons_self)

/-- **It fails** if somebody has none, and there is somebody else. -/
theorem divide_eq_error {sorted : List Nat} (hlt : ∀ i ∈ sorted, i < m.size)
    (htwo : 2 ≤ sorted.length) (h : ∃ i ∈ sorted, m.row i = []) :
    m.divide sorted = .error .outOfRange := by
  obtain ⟨i, hi, hnil⟩ := h
  obtain herror | ⟨-, hone | hall⟩ := divide_cases hlt (List.ne_nil_of_mem hi)
  · exact herror
  · omega
  · exact absurd hnil (hall i hi)

/-- **Divide and conquer** reads everybody, and everybody's first objective, unless there is
nobody to compare with. -/
theorem search_kung_eq_find (candidates : List Nat) :
    Finder.kung.search m candidates = Finder.kung.find m candidates := by
  have hdefined : Finder.kung.isDefinedOn m candidates = true
      ↔ candidates.length ≤ 1 ∨ ∀ i ∈ candidates, i < m.size ∧ m.row i ≠ [] := by
    show (decide (candidates.length ≤ 1)
      || candidates.all fun i => i < m.size && !(m.row i).isEmpty) = true ↔ _
    simp [List.all_eq_true]
  have hperm : (Maxima.descending m.row candidates).Perm candidates := stableSort_perm _ _
  by_cases h : m.IsReadable candidates
  · rw [Finder.search, sortRows_eq_ok h]
    show m.divide (Maxima.descending m.row candidates) = _
    by_cases hall : candidates.length ≤ 1 ∨ ∀ i ∈ candidates, i < m.size ∧ m.row i ≠ []
    · rw [Finder.find, if_pos (hdefined.2 hall)]
      obtain hle | hall := hall
      · have hle' : (Maxima.descending m.row candidates).length ≤ 1 := hperm.length_eq ▸ hle
        rw [divide, if_pos hle', Finder.run, Maxima.kung, Maxima.ofSorted, if_pos hle']
      · exact divide_eq_ok fun i hi => hall i (hperm.subset hi)
    · rw [Finder.find, if_neg (mt hdefined.1 hall)]
      rw [not_or, Nat.not_le] at hall
      have hlt := h.resolve_left (by omega)
      have hnil : ∃ i ∈ candidates, m.row i = [] := by
        by_contra hnone
        exact hall.2 fun i hi => ⟨hlt i hi, fun hnil => hnone ⟨i, hi, hnil⟩⟩
      obtain ⟨i, hi, hnil⟩ := hnil
      exact divide_eq_error (fun i hi => hlt i (hperm.subset hi)) (hperm.length_eq ▸ hall.1)
        ⟨i, hperm.symm.subset hi, hnil⟩
  · have hall : ¬ (candidates.length ≤ 1 ∨ ∀ i ∈ candidates, i < m.size ∧ m.row i ≠ []) :=
      fun hall => h (hall.imp_right fun hall i hi => (hall i hi).1)
    rw [Finder.search, sortRows_eq_error h, Finder.find, if_neg (mt hdefined.1 hall)]
    rfl

end FitnessMatrix

/-- **Every finder fails exactly where it is not defined**, and otherwise comes to the front
that it comes to where nothing is checked. -/
theorem Finder.search_eq_find (finder : Finder) (candidates : List Nat) :
    finder.search m candidates = finder.find m candidates := by
  cases finder with
  | oneObjective => exact m.keepTied_eq_find candidates
  | sortFilter => exact m.search_sortFilter_eq_find candidates
  | kung => exact m.search_kung_eq_find candidates
  | best => exact m.eliminate_eq_find candidates

end ParetoSelection
