import Mathlib.Data.List.Basic
import ParetoSelection.Maxima.Window
import ParetoSelection.Proofs.Maxima.Front

/-!
# The window holds what a pass holds

The array of `eliminate` is read as a list in five parts (`Window.Shows`): what has been
dropped to the front, the candidates that a `Pass` has passed with its best among them,
those still to be examined, and what has been dropped to the back. The four positions are
the lengths of these parts, so they are in order and within the array at any time.

Dropping at the back and dropping at the front each are one exchange, and what an exchange
makes of the parts is `refill` or `firstToBack` (`exchangeAt_back`, `exchangeAt_front`). A
step of the loop is then a step of `Pass.run`, a step of the sweep one of `Pass.sweep`, and
all in all the loops end and return `Maxima.best` (`eliminate_eq_find`). They fail exactly
where there are at least two candidates and one of them is not in the matrix.
-/

namespace ParetoSelection

variable {α : Type} [Scalar α]

/-! ## Reading and exchanging -/

section Arrays

variable {β : Type} {slots : Array β} {pre ys post : List β} {x : β}

/-- An element stands where what precedes it ends. -/
theorem getElem?_of_toList (h : slots.toList = pre ++ x :: post) :
    slots[pre.length]? = some x := by
  rw [← Array.getElem?_toList, h, List.getElem?_append_right (Nat.le_refl _), Nat.sub_self,
    List.getElem?_cons_zero]

/-- It is read there. -/
theorem readAt_eq (h : slots.toList = pre ++ x :: post) : readAt slots pre.length = .ok x := by
  rw [readAt, getElem?_of_toList h]

/-- Another one is written there. -/
theorem set_length_append (y : β) : (pre ++ x :: post).set pre.length y = pre ++ y :: post := by
  rw [List.set_append_right _ _ (Nat.le_refl _), Nat.sub_self, List.set_cons_zero]

/-- Two elements that are there are exchanged, in whichever order they are named. -/
theorem exchangeAt_eq {y : β} (h : slots.toList = pre ++ x :: ys ++ y :: post) :
    ∃ slots', exchangeAt slots pre.length (pre.length + (ys.length + 1)) = .ok slots' ∧
      exchangeAt slots (pre.length + (ys.length + 1)) pre.length = .ok slots' ∧
      slots'.toList = pre ++ y :: ys ++ x :: post := by
  have hlength (z : β) : (pre ++ z :: ys).length = pre.length + (ys.length + 1) :=
    List.length_append
  have hfst : slots[pre.length]? = some x :=
    getElem?_of_toList (h.trans (List.append_assoc pre (x :: ys) (y :: post)))
  have hsnd : slots[pre.length + (ys.length + 1)]? = some y := by
    rw [← hlength x]
    exact getElem?_of_toList h
  obtain ⟨hi, hx⟩ := Array.getElem?_eq_some_iff.1 hfst
  obtain ⟨hj, hy⟩ := Array.getElem?_eq_some_iff.1 hsnd
  refine ⟨slots.swap _ _ hi hj, dif_pos ⟨hi, hj⟩, ?_, ?_⟩
  · rw [Array.swap_comm]
    exact dif_pos ⟨hj, hi⟩
  · rw [Array.toList_swap, hx, hy, h, List.append_assoc, List.cons_append, set_length_append,
      ← List.cons_append, ← List.append_assoc, ← hlength y, set_length_append]

/-- An element is exchanged with itself. -/
theorem exchangeAt_self (h : slots.toList = pre ++ x :: post) :
    exchangeAt slots pre.length pre.length = .ok slots := by
  obtain ⟨hi, -⟩ := Array.getElem?_eq_some_iff.1 (getElem?_of_toList h)
  rw [exchangeAt, dif_pos ⟨hi, hi⟩, Except.ok.injEq, ← Array.toList_inj, Array.toList_swap,
    List.set_set, ← Array.getElem_toList, List.set_getElem_self]

/-- **Dropping an element at the back**: the last of those after it comes in its place. -/
theorem exchangeAt_back (h : slots.toList = pre ++ x :: ys ++ post) :
    ∃ slots', exchangeAt slots pre.length (pre.length + ys.length) = .ok slots' ∧
      slots'.toList = pre ++ Maxima.refill ys ++ x :: post := by
  cases ys using List.reverseRecOn with
  | nil =>
    rw [List.append_assoc, List.singleton_append] at h
    refine ⟨slots, exchangeAt_self h, h.trans ?_⟩
    rw [Maxima.refill, List.getLast?_nil, List.dropLast_nil, Option.toList_none,
      List.append_nil, List.append_nil]
  | append_singleton ys y =>
    rw [← List.cons_append, ← List.append_assoc, List.append_assoc, List.singleton_append] at h
    obtain ⟨slots', hexchange, -, hslots'⟩ := exchangeAt_eq h
    refine ⟨slots', ?_, hslots'.trans ?_⟩
    · rw [List.length_append, List.length_singleton]
      exact hexchange
    · rw [Maxima.refill, List.getLast?_concat, List.dropLast_concat, Option.toList_some,
        List.singleton_append]

/-- **Dropping an element at the front**: the first of those before it comes in its
place. -/
theorem exchangeAt_front (h : slots.toList = pre ++ ys ++ x :: post) :
    ∃ slots', exchangeAt slots (pre.length + ys.length) pre.length = .ok slots' ∧
      slots'.toList = pre ++ x :: Maxima.firstToBack ys ++ post := by
  cases ys with
  | nil =>
    rw [List.append_nil] at h
    refine ⟨slots, exchangeAt_self h, h.trans ?_⟩
    rw [Maxima.firstToBack, List.append_assoc, List.singleton_append]
  | cons y ys =>
    obtain ⟨slots', -, hexchange, hslots'⟩ := exchangeAt_eq h
    refine ⟨slots', hexchange, hslots'.trans ?_⟩
    rw [Maxima.firstToBack, List.append_assoc, List.append_assoc, List.cons_append,
      List.cons_append, List.append_assoc, List.singleton_append]

end Arrays

/-! ## What is read -/

namespace FitnessMatrix

variable (m : FitnessMatrix α)

/-- **No row is read that is not there**: each of the candidates is in the matrix, unless
there is at most one, whose row is not read. -/
def IsReadable (candidates : List Nat) : Prop :=
  candidates.length ≤ 1 ∨ ∀ k ∈ candidates, k < m.size

variable {m}

omit [Scalar α] in
/-- Some of the candidates can be read if all can. -/
theorem IsReadable.of_subperm {xs ys : List Nat} (h : m.IsReadable ys) (hsub : xs.Subperm ys) :
    m.IsReadable xs :=
  h.imp (Nat.le_trans hsub.length_le) fun hall k hk => hall k (hsub.subset hk)

omit [Scalar α] in
/-- Two candidates are read if they are there. -/
theorem IsReadable.pair {i k : Nat} {xs : List Nat} (h : m.IsReadable (i :: k :: xs)) :
    i < m.size ∧ k < m.size := by
  have hall := h.resolve_left (by simp)
  exact ⟨hall i List.mem_cons_self, hall k (List.mem_cons_of_mem i List.mem_cons_self)⟩

omit [Scalar α] in
/-- Two candidates that are there can be read along with others that can. -/
theorem IsReadable.cons_cons {i j k : Nat} {xs ys : List Nat} (h : m.IsReadable (j :: ys))
    (hi : i < m.size) (hk : k < m.size) (hperm : ys.Perm xs) : m.IsReadable (i :: k :: xs) := by
  refine Or.inr fun l hl => ?_
  obtain rfl | hl := List.mem_cons.1 hl
  · exact hi
  obtain rfl | hl := List.mem_cons.1 hl
  · exact hk
  have hys : l ∈ ys := hperm.mem_iff.2 hl
  have hpos : 0 < ys.length := List.length_pos_of_mem hys
  exact h.resolve_left (by rw [List.length_cons]; omega) l (List.mem_cons_of_mem j hys)

omit [Scalar α] in
/-- The row of a candidate that is there. -/
theorem readAt_row {i : Nat} (hi : i < m.size) : readAt m i = .ok (m.row i) := by
  rw [readAt, Array.getElem?_eq_getElem hi, row, Array.getD_eq_getD_getElem?,
    Array.getElem?_eq_getElem hi, Option.getD_some]

/-- **Candidates in two slots are compared by their rows.** -/
theorem compareSlots_eq {slots : Array Nat} {i j a b : Nat} (hi : readAt slots i = .ok a)
    (hj : readAt slots j = .ok b) (ha : a < m.size) (hb : b < m.size) :
    m.compareSlots slots i j = .ok (Dominance.compare (m.row a) (m.row b)) := by
  unfold compareSlots
  rw [hi, hj]
  show (readAt m a >>= fun x => readAt m b >>= fun y => _) = _
  rw [readAt_row ha, readAt_row hb]
  rfl

/-- If one of them is not in the matrix, the comparison fails. -/
theorem compareSlots_eq_error {slots : Array Nat} {i j a b : Nat} (hi : readAt slots i = .ok a)
    (hj : readAt slots j = .ok b) (h : ¬ (a < m.size ∧ b < m.size)) :
    m.compareSlots slots i j = .error .outOfRange := by
  have hmissing {k : Nat} (hk : ¬ k < m.size) : readAt m k = .error .outOfRange := by
    rw [readAt, Array.getElem?_eq_none (Nat.le_of_not_lt hk)]
  unfold compareSlots
  rw [hi, hj]
  show (readAt m a >>= fun x => readAt m b >>= fun y => _) = _
  by_cases ha : a < m.size
  · rw [readAt_row ha, hmissing fun hb => h ⟨ha, hb⟩]
    rfl
  · rw [hmissing ha]
    rfl

end FitnessMatrix

/-! ## A pass -/

/-- **The array and its positions show a pass**, between the candidates `pre` dropped to the
front and those `post` dropped to the back. -/
structure Shows (slots : Array Nat) (first best next last : Nat) (pre : List Nat)
    (p : Maxima.Pass Nat) (unseen post : List Nat) : Prop where
  /-- The parts stand one after the other. -/
  toList : slots.toList = pre ++ p.earlier ++ p.best :: p.later ++ unseen ++ post
  /-- The window starts behind what has been dropped to the front. -/
  first_eq : first = pre.length
  /-- The best comes after the earlier candidates. -/
  best_eq : best = pre.length + p.earlier.length
  /-- Those to examine come after the later candidates. -/
  next_eq : next = pre.length + p.earlier.length + (p.later.length + 1)
  /-- The window ends with them. -/
  last_eq : last = next + unseen.length

namespace Shows

variable {slots : Array Nat} {first best next last i : Nat} {pre unseen post : List Nat}
  {p : Maxima.Pass Nat}

/-- **A pass starts** with the first of the candidates as the best. -/
theorem start {first last : Nat} (hslots : slots.toList = pre ++ i :: unseen ++ post)
    (hfirst : first = pre.length) (hlast : last = first + (i :: unseen).length) :
    Shows slots first first (first + 1) last pre ⟨[], i, []⟩ unseen post := by
  refine ⟨?_, hfirst, hfirst, by rw [hfirst]; rfl, ?_⟩
  · rw [hslots]
    simp
  · rw [hlast, List.length_cons]
    omega

/-- The best is read. -/
theorem readAt_best (h : Shows slots first best next last pre p unseen post) :
    readAt slots best = .ok p.best := by
  have hlist := h.toList
  rw [List.append_assoc, List.append_assoc, List.cons_append] at hlist
  rw [h.best_eq, ← List.length_append]
  exact readAt_eq hlist

/-- What precedes the candidates to examine. -/
theorem length_passed (h : Shows slots first best next last pre p unseen post) :
    (pre ++ p.earlier ++ p.best :: p.later).length = next := by
  rw [List.length_append, List.length_append, List.length_cons, h.next_eq]

/-- The next candidate is read. -/
theorem readAt_next (h : Shows slots first best next last pre p (i :: unseen) post) :
    readAt slots next = .ok i := by
  have hlist := h.toList
  rw [List.append_assoc _ (i :: unseen), List.cons_append] at hlist
  rw [← h.length_passed]
  exact readAt_eq hlist

/-- There is a next candidate as long as the positions say so. -/
theorem next_lt (h : Shows slots first best next last pre p (i :: unseen) post) : next < last := by
  rw [h.last_eq, List.length_cons]
  omega

/-- **A step that drops the next candidate.** -/
theorem drop (h : Shows slots first best next last pre p (i :: unseen) post) :
    ∃ slots', exchangeAt slots next (last - 1) = .ok slots' ∧
      Shows slots' first best next (last - 1) pre p (Maxima.refill unseen) (i :: post) := by
  have hlast : last - 1 = next + unseen.length := by
    rw [h.last_eq, List.length_cons]
    omega
  obtain ⟨slots', hexchange, hslots'⟩ := exchangeAt_back h.toList
  rw [h.length_passed, ← hlast] at hexchange
  refine ⟨slots', hexchange, hslots', h.first_eq, h.best_eq, h.next_eq, ?_⟩
  rw [Maxima.length_refill, hlast]

/-- **A step that puts the next candidate in the place of the best.** -/
theorem replace (h : Shows slots first best next last pre p (i :: unseen) post) :
    ∃ slots', exchangeAt slots best first = .ok slots' ∧
      Shows slots' (first + 1) next (next + 1) last (pre ++ [p.best])
        ⟨Maxima.firstToBack p.earlier ++ p.later, i, []⟩ unseen post := by
  have hlist := h.toList
  rw [List.append_assoc, List.append_assoc, List.cons_append] at hlist
  obtain ⟨slots', hexchange, hslots'⟩ := exchangeAt_front hlist
  rw [← h.best_eq, ← h.first_eq] at hexchange
  have hlength : (pre ++ [p.best]).length = pre.length + 1 := List.length_append
  have hpassed : (Maxima.firstToBack p.earlier ++ p.later).length
      = p.earlier.length + p.later.length := by
    rw [List.length_append, Maxima.length_firstToBack]
  refine ⟨slots', hexchange, hslots'.trans ?_, ?_, ?_, ?_, ?_⟩
  · simp
  · rw [hlength, h.first_eq]
  · rw [hlength, hpassed, h.next_eq]
    omega
  · rw [hlength, hpassed, h.next_eq]
    show _ = _ + (0 + 1)
    omega
  · rw [h.last_eq, List.length_cons]
    omega

/-- **A step that passes the next candidate.** -/
theorem keep (h : Shows slots first best next last pre p (i :: unseen) post) :
    Shows slots first best (next + 1) last pre ⟨p.earlier, p.best, p.later ++ [i]⟩ unseen post := by
  refine ⟨h.toList.trans ?_, h.first_eq, h.best_eq, ?_, ?_⟩
  · simp
  · rw [h.next_eq]
    dsimp only
    rw [List.length_append, List.length_singleton]
    omega
  · rw [h.last_eq, List.length_cons]
    omega

end Shows

namespace FitnessMatrix

variable (m : FitnessMatrix α)

/-- **The scan is the run of a pass.** -/
theorem eliminationScan_eq {slots : Array Nat} {first best next last : Nat}
    {pre unseen post : List Nat} {p : Maxima.Pass Nat}
    (h : Shows slots first best next last pre p unseen post)
    (hrows : m.IsReadable (p.best :: unseen)) :
    ∃ w pre' post', m.eliminationScan slots first best next last = .ok w ∧
      Shows w.slots w.first w.best w.last w.last pre' (p.run m.row unseen) [] post' := by
  fun_induction Maxima.Pass.run m.row p unseen generalizing slots first best next last pre post with
  | case1 p =>
    have hlast : last = next := h.last_eq
    subst hlast
    rw [eliminationScan, if_neg (Nat.lt_irrefl _)]
    exact ⟨_, pre, post, rfl, h⟩
  | case2 p i unseen hcmp ih =>
    obtain ⟨slots', hexchange, h'⟩ := h.drop
    have hsub : (Maxima.refill unseen).Subperm (i :: unseen) :=
      (Maxima.refill_perm unseen).subperm.trans (List.sublist_cons_self i unseen).subperm
    obtain ⟨w, pre', post', hscan, hw⟩ := ih h' (hrows.of_subperm ((List.subperm_cons _).2 hsub))
    refine ⟨w, pre', post', ?_, hw⟩
    rw [eliminationScan, if_pos h.next_lt,
      compareSlots_eq h.readAt_best h.readAt_next hrows.pair.1 hrows.pair.2, hcmp]
    show (exchangeAt slots next (last - 1) >>= _) = _
    rw [hexchange]
    exact hscan
  | case3 p i unseen hcmp ih =>
    obtain ⟨slots', hexchange, h'⟩ := h.replace
    obtain ⟨w, pre', post', hscan, hw⟩ := ih h'
      (hrows.of_subperm (List.sublist_cons_self _ _).subperm)
    refine ⟨w, pre', post', ?_, hw⟩
    rw [eliminationScan, if_pos h.next_lt,
      compareSlots_eq h.readAt_best h.readAt_next hrows.pair.1 hrows.pair.2, hcmp]
    show (exchangeAt slots best first >>= _) = _
    rw [hexchange]
    exact hscan
  | case4 p i unseen hcmp ih =>
    obtain ⟨w, pre', post', hscan, hw⟩ := ih h.keep
      (hrows.of_subperm ((List.sublist_cons_self i unseen).cons_cons _).subperm)
    refine ⟨w, pre', post', ?_, hw⟩
    rw [eliminationScan, if_pos h.next_lt,
      compareSlots_eq h.readAt_best h.readAt_next hrows.pair.1 hrows.pair.2, hcmp]
    exact hscan

/-- It fails if it meets a candidate that is not in the matrix. -/
theorem eliminationScan_eq_error {slots : Array Nat} {first best next last : Nat}
    {pre unseen post : List Nat} {p : Maxima.Pass Nat}
    (h : Shows slots first best next last pre p unseen post)
    (hrows : ¬ m.IsReadable (p.best :: unseen)) :
    m.eliminationScan slots first best next last = .error .outOfRange := by
  fun_induction Maxima.Pass.run m.row p unseen generalizing slots first best next last pre post with
  | case1 p => exact absurd (Or.inl (Nat.le_refl 1)) hrows
  | case2 p i unseen hcmp ih =>
    rw [eliminationScan, if_pos h.next_lt]
    by_cases hread : p.best < m.size ∧ i < m.size
    · obtain ⟨slots', hexchange, h'⟩ := h.drop
      rw [compareSlots_eq h.readAt_best h.readAt_next hread.1 hread.2, hcmp]
      show (exchangeAt slots next (last - 1) >>= _) = _
      rw [hexchange]
      exact ih h' fun hrest =>
        hrows (hrest.cons_cons hread.1 hread.2 (Maxima.refill_perm unseen))
    · rw [compareSlots_eq_error h.readAt_best h.readAt_next hread]
      rfl
  | case3 p i unseen hcmp ih =>
    rw [eliminationScan, if_pos h.next_lt]
    by_cases hread : p.best < m.size ∧ i < m.size
    · obtain ⟨slots', hexchange, h'⟩ := h.replace
      rw [compareSlots_eq h.readAt_best h.readAt_next hread.1 hread.2, hcmp]
      show (exchangeAt slots best first >>= _) = _
      rw [hexchange]
      exact ih h' fun hrest => hrows (hrest.cons_cons hread.1 hread.2 (List.Perm.refl _))
    · rw [compareSlots_eq_error h.readAt_best h.readAt_next hread]
      rfl
  | case4 p i unseen hcmp ih =>
    rw [eliminationScan, if_pos h.next_lt]
    by_cases hread : p.best < m.size ∧ i < m.size
    · rw [compareSlots_eq h.readAt_best h.readAt_next hread.1 hread.2, hcmp]
      exact ih h.keep fun hrest => hrows (hrest.cons_cons hread.1 hread.2 (List.Perm.refl _))
    · rw [compareSlots_eq_error h.readAt_best h.readAt_next hread]
      rfl

end FitnessMatrix

/-! ## The sweep -/

/-- What a sweep for `best` keeps of some candidates, along with those kept before. -/
def Maxima.sweepFrom {ι : Type} (row : ι → List α) (best : ι) (kept candidates : List ι) : List ι :=
  candidates.foldl
    (fun kept i => if dominates (row best) (row i) then firstToBack kept else kept ++ [i]) kept

/-- A candidate that the best dominates is dropped. -/
theorem Maxima.sweepFrom_cons_pos {ι : Type} {row : ι → List α} {best i : ι}
    (h : dominates (row best) (row i) = true) (kept candidates : List ι) :
    sweepFrom row best kept (i :: candidates)
      = sweepFrom row best (firstToBack kept) candidates := by
  rw [sweepFrom, List.foldl_cons, if_pos h, sweepFrom]

/-- Any other one is kept. -/
theorem Maxima.sweepFrom_cons_neg {ι : Type} {row : ι → List α} {best i : ι}
    (h : ¬ dominates (row best) (row i) = true) (kept candidates : List ι) :
    sweepFrom row best kept (i :: candidates)
      = sweepFrom row best (kept ++ [i]) candidates := by
  rw [sweepFrom, List.foldl_cons, if_neg h, sweepFrom]

namespace FitnessMatrix

variable (m : FitnessMatrix α)

/-- **The sweep keeps what the sweep of a pass keeps**, and leaves the best where it is. -/
theorem eliminationSweep_eq {slots : Array Nat} {first next best b : Nat}
    {pre kept xs post : List Nat} (hslots : slots.toList = pre ++ kept ++ xs ++ b :: post)
    (hfirst : first = pre.length) (hnext : next = pre.length + kept.length)
    (hbest : best = next + xs.length) (hrows : m.IsReadable (b :: xs)) :
    ∃ slots' pre', m.eliminationSweep slots first next best = .ok (slots', pre'.length) ∧
      slots'.toList = pre' ++ Maxima.sweepFrom m.row b kept xs ++ b :: post ∧
      best = pre'.length + (Maxima.sweepFrom m.row b kept xs).length := by
  induction xs generalizing slots first next pre kept with
  | nil =>
    rw [List.append_nil] at hslots
    rw [List.length_nil, Nat.add_zero] at hbest
    rw [eliminationSweep, if_neg (by omega), hfirst]
    exact ⟨slots, pre, rfl, hslots, hbest.trans hnext⟩
  | cons i xs ih =>
    have hreadBest : readAt slots best = .ok b := by
      rw [hbest, hnext, ← List.length_append, ← List.length_append]
      exact readAt_eq hslots
    rw [List.append_assoc _ (i :: xs), List.cons_append] at hslots
    have hreadNext : readAt slots next = .ok i := by
      rw [hnext, ← List.length_append]
      exact readAt_eq hslots
    rw [List.length_cons] at hbest
    have hrest : m.IsReadable (b :: xs) :=
      hrows.of_subperm ((List.sublist_cons_self i xs).cons_cons b).subperm
    rw [eliminationSweep, if_pos (by omega),
      compareSlots_eq hreadBest hreadNext hrows.pair.1 hrows.pair.2]
    by_cases hdom : Dominance.compare (m.row b) (m.row i) = .left
    · obtain ⟨slots', hexchange, hslots'⟩ := exchangeAt_front hslots
      rw [← hnext, ← hfirst] at hexchange
      rw [Maxima.sweepFrom_cons_pos (decide_eq_true hdom)]
      show ∃ _ _, (if Dominance.compare (m.row b) (m.row i) = .left then _ else _) = _ ∧ _
      rw [if_pos hdom, hexchange]
      have hdropped : slots'.toList
          = (pre ++ [i]) ++ Maxima.firstToBack kept ++ xs ++ b :: post := by
        rw [hslots']
        simp
      refine ih hdropped ?_ ?_ ?_ hrest
      · rw [hfirst, List.length_append, List.length_singleton]
      · rw [hnext, List.length_append, List.length_singleton, Maxima.length_firstToBack]
        omega
      · omega
    · rw [Maxima.sweepFrom_cons_neg fun h => hdom (of_decide_eq_true h)]
      show ∃ _ _, (if Dominance.compare (m.row b) (m.row i) = .left then _ else _) = _ ∧ _
      rw [if_neg hdom]
      refine ih ?_ hfirst ?_ ?_ hrest
      · rw [hslots]
        simp
      · rw [hnext, List.length_append, List.length_singleton]
        omega
      · omega

/-! ## The whole -/

variable {m} in
/-- What a round of the loop does once its pass and its sweep have gone well. -/
theorem eliminateWindow_of_ok {slots slots' : Array Nat} {first first' last : Nat} {w : Window}
    (hlt : first < last) (hscan : m.eliminationScan slots first first (first + 1) last = .ok w)
    (hsweep : m.eliminationSweep w.slots w.first w.first w.best = .ok (slots', first')) :
    m.eliminateWindow slots first last = (do
      let member ← readAt w.slots w.best
      let slots ← exchangeAt slots' w.best (w.last - 1)
      return member :: (← m.eliminateWindow slots first' (w.last - 1))) := by
  rw [eliminateWindow, if_pos hlt]
  split
  · rename_i e hfail
    cases hscan.symm.trans hfail
  · rename_i w' hscan'
    obtain rfl : w = w' := Except.ok.inj (hscan.symm.trans hscan')
    refine bind_congr fun member => ?_
    split
    · rename_i e hfail
      cases hsweep.symm.trans hfail
    · rename_i hsweep'
      cases hsweep.symm.trans hsweep'
      rfl

/-- **One round of the loop**: the best of a pass is a member of the front, and the window
holds what the pass leaves. -/
theorem eliminateWindow_cons {slots : Array Nat} {first last i : Nat} {pre unseen post : List Nat}
    (hslots : slots.toList = pre ++ i :: unseen ++ post) (hfirst : first = pre.length)
    (hlast : last = first + (i :: unseen).length) (hrows : m.IsReadable (i :: unseen)) :
    let pass := Maxima.Pass.run m.row ⟨[], i, []⟩ unseen
    ∃ slots' pre' last' post', m.eliminateWindow slots first last
        = (do return pass.best :: (← m.eliminateWindow slots' pre'.length last')) ∧
      slots'.toList = pre' ++ pass.rest m.row ++ post' ∧
      last' = pre'.length + (pass.rest m.row).length := by
  intro pass
  have hstart := Shows.start hslots hfirst hlast
  obtain ⟨w, pre₁, post₁, hscan, hw⟩ := m.eliminationScan_eq hstart hrows
  have hlist : w.slots.toList
      = pre₁ ++ [] ++ pass.earlier ++ pass.best :: (pass.later ++ post₁) := by
    rw [hw.toList]
    simp [pass]
  have hreadable : m.IsReadable (pass.best :: pass.earlier) :=
    hrows.of_subperm ((((List.sublist_append_left _ _).cons_cons _).subperm).trans
      (Maxima.Pass.passed_run_subperm m.row ⟨[], i, []⟩ unseen))
  obtain ⟨slots₂, pre₂, hsweep, hslots₂, hbest⟩ := m.eliminationSweep_eq hlist hw.first_eq
    hw.first_eq (hw.best_eq.trans (by rw [hw.first_eq])) hreadable
  rw [← List.cons_append, ← List.append_assoc] at hslots₂
  obtain ⟨slots₃, hexchange, hslots₃⟩ := exchangeAt_back hslots₂
  rw [List.length_append, ← hbest] at hexchange
  have hlast' : w.last - 1 = w.best + pass.later.length := by
    rw [hw.next_eq, hw.best_eq]
    rfl
  rw [← hlast'] at hexchange
  refine ⟨slots₃, pre₂, w.last - 1, pass.best :: post₁, ?_, ?_, ?_⟩
  · have hlt : first < last := by
      rw [hlast, List.length_cons]
      omega
    rw [eliminateWindow_of_ok hlt hscan hsweep, hw.readAt_best, hexchange]
    rfl
  · rw [hslots₃, Maxima.Pass.rest, ← List.append_assoc]
    rfl
  · rw [hlast', hbest, Maxima.Pass.rest, List.length_append, Maxima.length_refill,
      ← Nat.add_assoc]
    rfl

/-- **The loop finds the front by elimination** if no row is read that is not there. -/
theorem eliminateWindow_eq {slots : Array Nat} {first last : Nat} {pre candidates post : List Nat}
    (hslots : slots.toList = pre ++ candidates ++ post) (hfirst : first = pre.length)
    (hlast : last = first + candidates.length) (hrows : m.IsReadable candidates) :
    m.eliminateWindow slots first last = .ok (Maxima.best m.row candidates) := by
  fun_induction Maxima.best m.row candidates generalizing slots first last pre post with
  | case1 =>
    rw [eliminateWindow, if_neg (by rw [hlast]; exact Nat.lt_irrefl _)]
    rfl
  | case2 i unseen pass =>
    rename_i ih
    obtain ⟨slots', pre', last', post', heq, hslots', hlast'⟩ :=
      m.eliminateWindow_cons hslots hfirst hlast hrows
    have hrest := (List.sublist_cons_self _ _).subperm.trans
      (Maxima.Pass.rest_subperm m.row i unseen)
    rw [heq, ih hslots' rfl hlast' (hrows.of_subperm hrest)]
    rfl

/-- It fails in the first pass if there is a row to read that is not there. -/
theorem eliminateWindow_eq_error {slots : Array Nat} {first last i : Nat}
    {pre unseen post : List Nat} (hslots : slots.toList = pre ++ i :: unseen ++ post)
    (hfirst : first = pre.length) (hlast : last = first + (i :: unseen).length)
    (hrows : ¬ m.IsReadable (i :: unseen)) :
    m.eliminateWindow slots first last = .error .outOfRange := by
  have hfail := m.eliminationScan_eq_error (Shows.start hslots hfirst hlast) hrows
  rw [eliminateWindow, if_pos (by rw [hlast, List.length_cons]; omega)]
  split
  · rename_i e hscan
    rw [Except.error.inj (hscan.symm.trans hfail)]
  · rename_i w hscan
    cases hscan.symm.trans hfail

omit [Scalar α] in
/-- The finder is defined on what can be read. -/
theorem isDefinedOn_best_iff (candidates : List Nat) :
    Finder.best.isDefinedOn m candidates = true ↔ m.IsReadable candidates := by
  show (decide (candidates.length ≤ 1) || candidates.all fun i => i < m.size) = true ↔ _
  rw [Bool.or_eq_true, decide_eq_true_eq, List.all_eq_true, IsReadable]
  exact or_congr_right (forall₂_congr fun k _ => decide_eq_true_iff)

/-- **Elimination within one array returns what the finder returns**, and fails where it
fails. -/
theorem eliminate_eq_find (candidates : List Nat) :
    m.eliminate candidates = Finder.best.find m candidates := by
  rw [eliminate, Finder.find]
  have hslots : candidates.toArray.toList = [] ++ candidates ++ [] := (List.append_nil _).symm
  have hlast : candidates.length = 0 + candidates.length := (Nat.zero_add _).symm
  by_cases hrows : m.IsReadable candidates
  · rw [if_pos ((m.isDefinedOn_best_iff candidates).2 hrows)]
    exact m.eliminateWindow_eq hslots rfl hlast hrows
  · rw [if_neg fun h => hrows ((m.isDefinedOn_best_iff candidates).1 h)]
    cases candidates with
    | nil => exact absurd (Or.inl (Nat.zero_le 1)) hrows
    | cons i unseen => exact m.eliminateWindow_eq_error hslots rfl hlast hrows

end FitnessMatrix

end ParetoSelection
