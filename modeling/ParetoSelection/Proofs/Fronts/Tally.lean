import ParetoSelection.Fronts.Tally
import ParetoSelection.Proofs.Access
import ParetoSelection.Proofs.Dominance
import ParetoSelection.Proofs.Fronts.Counting

/-!
# One comparison for every two candidates

The tables that ranking by counting starts with say of everybody whom they dominate, and by
how many they are dominated. To fill them in, every two candidates are compared once, the
earlier with the later, and a verdict for the later one is entered as its dominance over the
earlier one. This is right since a comparison gives the same verdict from the other side, and
that it does so is due to the values: of two of them not both are smaller than the other.

At any time a candidate has met everybody below a certain position, and its counter and its
list are those for the candidates below (`Tally.IsCurrent`). A comparison of two candidates
moves the position of each past the other. A candidate that has met all later ones has met
everybody, so that its counter is final when it is asked for whether the candidate belongs
to the first front (`Tally.ofMatrix_eq_ok`).
-/

namespace ParetoSelection

variable {α : Type} [Scalar α] {m : FitnessMatrix α}

open ParetoSelection.Pairwise

namespace Tally

/-! ## One comparison -/

/-- Whom a candidate meets where two candidates are compared: the other one, if it is one of
them. -/
def opponents (i j k : Nat) : List Nat :=
  if k = i then [j] else if k = j then [i] else []

/-- Either of the two meets the other. -/
theorem opponents_comm {i j : Nat} (hij : i ≠ j) (k : Nat) :
    opponents j i k = opponents i j k := by
  unfold opponents
  by_cases hki : k = i
  · rw [if_neg fun hkj => hij (hki.symm.trans hkj), if_pos hki, if_pos hki]
  · rw [if_neg hki, if_neg hki]

/-- **What a comparison does to everybody**: the counter of a candidate goes up by those it
meets and is dominated by, and those it meets and dominates join its list. -/
structure Meeting (m : FitnessMatrix α) (i j : Nat) (t t' : Tally) : Prop where
  /-- There are as many counters. -/
  size_counts : t'.counts.size = t.counts.size
  /-- There are as many lists. -/
  size_beaten : t'.beaten.size = t.beaten.size
  /-- Nobody joins the first front. -/
  first_eq : t'.first = t.first
  /-- Counters go up. -/
  getD_counts : ∀ k, t'.counts.getD k 0 = t.counts.getD k 0
    + (opponents i j k).countP fun l => dominates (m.row l) (m.row k)
  /-- Lists get longer. -/
  getD_beaten : ∀ k, t'.beaten.getD k [] = t.beaten.getD k []
    ++ (opponents i j k).filter fun l => dominates (m.row k) (m.row l)

/-- It does not matter which of the two is named first. -/
theorem Meeting.symm {t t' : Tally} {i j : Nat} (hij : i ≠ j) (h : Meeting m j i t t') :
    Meeting m i j t t' where
  size_counts := h.size_counts
  size_beaten := h.size_beaten
  first_eq := h.first_eq
  getD_counts k := opponents_comm hij k ▸ h.getD_counts k
  getD_beaten k := opponents_comm hij k ▸ h.getD_beaten k

/-- Nothing changes where neither of the two dominates the other. -/
theorem Meeting.refl {i j : Nat} (hforth : dominates (m.row i) (m.row j) = false)
    (hback : dominates (m.row j) (m.row i) = false) (t : Tally) : Meeting m i j t t := by
  have hnobody : ∀ k, ∀ l ∈ opponents i j k, dominates (m.row l) (m.row k) = false
      ∧ dominates (m.row k) (m.row l) = false := by
    intro k l hl
    unfold opponents at hl
    split at hl
    · rename_i hki
      rw [List.mem_singleton.1 hl, hki]
      exact ⟨hback, hforth⟩
    · split at hl
      · rename_i hkj
        rw [List.mem_singleton.1 hl, hkj]
        exact ⟨hforth, hback⟩
      · exact absurd hl List.not_mem_nil
  refine ⟨rfl, rfl, rfl, fun k => ?_, fun k => ?_⟩
  · rw [List.countP_eq_zero.2 fun l hl => Bool.eq_false_iff.1 (hnobody k l hl).1, Nat.add_zero]
  · rw [List.filter_eq_nil_iff.2 fun l hl => Bool.eq_false_iff.1 (hnobody k l hl).2,
      List.append_nil]

/-- **Dominance is recorded** for both candidates, for each as far as it is concerned. -/
theorem exists_record {t : Tally} {winner loser : Nat} (hne : winner ≠ loser)
    (hwinner : winner < t.beaten.size) (hloser : loser < t.counts.size)
    (hforth : dominates (m.row winner) (m.row loser) = true)
    (hback : dominates (m.row loser) (m.row winner) = false) :
    ∃ t', t.record winner loser = .ok t' ∧ Meeting m winner loser t t' := by
  obtain ⟨beaten, hbeaten, hsizeBeaten, hgetBeaten⟩ :=
    writeAt_eq_ok (t.beaten.getD winner [] ++ [loser]) hwinner
  obtain ⟨counts, hcounts, hsizeCounts, hgetCounts⟩ :=
    writeAt_eq_ok (t.counts.getD loser 0 + 1) hloser
  refine ⟨{ t with counts, beaten }, ?_, hsizeCounts, hsizeBeaten, rfl, fun k => ?_, fun k => ?_⟩
  · rw [record, readAt_eq_getD hwinner [], ok_bind, hbeaten, ok_bind, readAt_eq_getD hloser 0,
      ok_bind, hcounts]
    rfl
  · rw [hgetCounts, opponents]
    by_cases hkw : k = winner
    · simp [hkw, hne, hback]
    · by_cases hkl : k = loser
      · simp [hkl, hne.symm, hforth]
      · simp [hkw, hkl]
  · rw [hgetBeaten, opponents]
    by_cases hkw : k = winner
    · simp [hkw, hforth]
    · by_cases hkl : k = loser
      · simp [hkl, hne.symm, hback]
      · simp [hkw, hkl]

/-! ## What is known at any time -/

/-- **What the tables say while pairs are compared**: of each candidate as much as follows
from the candidates below some position. -/
structure IsCurrent (m : FitnessMatrix α) (seen : Nat → Nat) (t : Tally) : Prop where
  /-- Everybody has a counter. -/
  size_counts : t.counts.size = m.size
  /-- Everybody has a list. -/
  size_beaten : t.beaten.size = m.size
  /-- The counter of a candidate is for those below who dominate it. -/
  getD_counts : ∀ k < m.size, t.counts.getD k 0
    = (List.range (seen k)).countP fun l => dominates (m.row l) (m.row k)
  /-- The list of a candidate is of those below whom it dominates. -/
  getD_beaten : ∀ k < m.size, t.beaten.getD k []
    = (List.range (seen k)).filter fun l => dominates (m.row k) (m.row l)

/-- A meeting brings the tables up to date for two who have met everybody below each other. -/
theorem Meeting.isCurrent {t t' : Tally} {i j : Nat} (h : Meeting m i j t t')
    {seen seen' : Nat → Nat} (ht : t.IsCurrent m seen)
    (hseen : ∀ k < m.size, List.range (seen' k) = List.range (seen k) ++ opponents i j k) :
    t'.IsCurrent m seen' where
  size_counts := h.size_counts.trans ht.size_counts
  size_beaten := h.size_beaten.trans ht.size_beaten
  getD_counts k hk := by rw [h.getD_counts, ht.getD_counts k hk, hseen k hk, List.countP_append]
  getD_beaten k hk := by rw [h.getD_beaten, ht.getD_beaten k hk, hseen k hk, List.filter_append]

/-- How far each candidate has got before candidate `i` meets candidate `j`: the candidates
before `i` have met everybody, and those between the two have met `i` already. -/
def progress (n i j k : Nat) : Nat :=
  if k < i then n else if k = i then j else if k < j then i + 1 else i

/-- The meeting of two candidates takes each of them past the other. -/
theorem range_progress_succ {n i j : Nat} (hij : i ≤ j) (k : Nat) :
    List.range (progress n i (j + 1) k) = List.range (progress n i j k) ++ opponents i j k := by
  unfold progress opponents
  by_cases hki : k = i
  · simp [hki, List.range_succ]
  · by_cases hkj : k = j
    · have hlt : ¬ k < i := fun h => absurd (hkj ▸ h) (Nat.not_lt_of_le hij)
      simp [hkj ▸ hki, hkj ▸ hlt, hkj, List.range_succ]
    · have hiff : k < j + 1 ↔ k < j := by omega
      simp [hki, hkj, hiff]

/-- Nobody has met anybody at the start. -/
theorem isCurrent_start (m : FitnessMatrix α) :
    (start m.size).IsCurrent m (progress m.size 0 0) := by
  have hnone : progress m.size 0 0 = fun _ => 0 := by
    funext k
    simp [progress]
  rw [hnone]
  exact ⟨Array.size_replicate, Array.size_replicate, fun k hk => getD_replicate hk,
    fun k hk => getD_replicate hk⟩

/-- Once a candidate has met everybody it is the turn of the next one. -/
theorem IsCurrent.next_turn {t : Tally} {i : Nat} (h : t.IsCurrent m (progress m.size i m.size)) :
    t.IsCurrent m (progress m.size (i + 1) (i + 1)) := by
  have hprogress : ∀ k < m.size,
      progress m.size (i + 1) (i + 1) k = progress m.size i m.size k := by
    intro k hk
    unfold progress
    by_cases hki : k = i
    · simp [hki]
    · by_cases hlt : k < i
      · simp [hlt, Nat.lt_succ_of_lt hlt]
      · have hnot : ¬ k < i + 1 := by omega
        simp [hki, hk, hlt, hnot]
  refine ⟨h.size_counts, h.size_beaten, fun k hk => ?_, fun k hk => ?_⟩
  · rw [hprogress k hk, h.getD_counts k hk]
  · rw [hprogress k hk, h.getD_beaten k hk]

/-- A candidate joins the first front if its counter is zero. -/
theorem enroll_eq_ok {t : Tally} {i : Nat} (hi : i < t.counts.size) :
    t.enroll i = .ok { t with
      first := if t.counts.getD i 0 = 0 then t.first ++ [i] else t.first } := by
  rw [enroll, readAt_eq_getD hi 0]
  show Except.ok (if t.counts.getD i 0 = 0 then { t with first := t.first ++ [i] } else t) = _
  by_cases hzero : t.counts.getD i 0 = 0
  · rw [if_pos hzero, if_pos hzero]
  · rw [if_neg hzero, if_neg hzero]

section Values

variable (hvalues : ∀ x y : α, ¬ (isLessWithin defaultTolerance x y = true
  ∧ isLessWithin defaultTolerance y x = true))

include hvalues

/-- **One comparison is enough for two candidates.** -/
theorem exists_meet {t : Tally} {i j : Nat} (hij : i ≠ j) (hi : i < m.size) (hj : j < m.size)
    (hcounts : t.counts.size = m.size) (hbeaten : t.beaten.size = m.size) :
    ∃ t', meet m i t j = .ok t' ∧ Meeting m i j t t' := by
  have hrow : readAt m i = .ok (m.row i) := readAt_eq_getD hi []
  have hrow' : readAt m j = .ok (m.row j) := readAt_eq_getD hj []
  have hforth : dominates (m.row i) (m.row j)
      = decide (Dominance.compare (m.row i) (m.row j) = .left) := rfl
  have hback : dominates (m.row j) (m.row i)
      = decide ((Dominance.compare (m.row i) (m.row j)).swap = .left) := by
    rw [dominates, Dominance.compare, compareWithin_comm hvalues (m.row i) (m.row j)]
    rfl
  rw [meet, hrow, ok_bind, hrow', ok_bind]
  cases hcompare : Dominance.compare (m.row i) (m.row j) with
  | left =>
    rw [hcompare] at hforth hback
    exact exists_record hij (hbeaten.symm ▸ hi) (hcounts.symm ▸ hj) hforth hback
  | right =>
    rw [hcompare] at hforth hback
    obtain ⟨t', hrecord, hmeeting⟩ :=
      exists_record hij.symm (hbeaten.symm ▸ hj) (hcounts.symm ▸ hi) hback hforth
    exact ⟨t', hrecord, hmeeting.symm hij⟩
  | neither =>
    rw [hcompare] at hforth hback
    exact ⟨t, rfl, .refl hforth hback t⟩

/-- **A candidate meets all later ones**, after which it has met everybody. -/
theorem IsCurrent.exists_meetAll {t : Tally} {i : Nat} (hi : i < m.size)
    (h : t.IsCurrent m (progress m.size i i)) :
    ∃ t', (List.range' (i + 1) (m.size - (i + 1))).foldlM (meet m i) t = .ok t'
      ∧ t'.IsCurrent m (progress m.size i m.size) ∧ t'.first = t.first := by
  have hloop := exists_foldlM_range'_eq_ok (f := meet m i) (s := t) (i + 1) (m.size - (i + 1))
    (P := fun j s => s.IsCurrent m (progress m.size i j) ∧ s.first = t.first)
  rw [Nat.add_sub_cancel' hi] at hloop
  -- nobody dominates themselves, so that a candidate may be taken to have met itself
  have hself : dominates (m.row i) (m.row i) = false :=
    decide_eq_false (compareWithin_self_ne_left hvalues _)
  have hentry := (Meeting.refl hself hself t).isCurrent h fun k _ =>
    range_progress_succ (Nat.le_refl i) k
  refine hloop (fun j s hij hj hs => ?_) ⟨hentry, rfl⟩
  obtain ⟨s', hs', hmeeting⟩ := exists_meet hvalues (Nat.ne_of_lt hij) hi hj hs.1.size_counts
    hs.1.size_beaten
  refine ⟨s', hs', hmeeting.isCurrent hs.1 fun k _ => range_progress_succ (Nat.le_of_lt hij) k, ?_⟩
  exact hmeeting.first_eq.trans hs.2

/-- **A turn**: the candidate of the turn meets all later ones, and joins the first front if
nobody dominates it. -/
theorem IsCurrent.exists_meetLater {t : Tally} {i : Nat} (hi : i < m.size)
    (h : t.IsCurrent m (progress m.size i i)) :
    ∃ t', meetLater m t i = .ok t' ∧ t'.IsCurrent m (progress m.size (i + 1) (i + 1))
      ∧ t'.first = if dominatorCount m i = 0 then t.first ++ [i] else t.first := by
  obtain ⟨s, hs, hcurrent, hfirst⟩ := h.exists_meetAll hvalues hi
  have hcount : s.counts.getD i 0 = dominatorCount m i := by
    rw [hcurrent.getD_counts i hi, progress, if_neg (Nat.lt_irrefl i), if_pos rfl]
    rfl
  have hnext := hcurrent.next_turn
  refine ⟨{ s with first := if s.counts.getD i 0 = 0 then s.first ++ [i] else s.first }, ?_,
    ⟨hnext.size_counts, hnext.size_beaten, hnext.getD_counts, hnext.getD_beaten⟩, ?_⟩
  · rw [meetLater, hs]
    exact enroll_eq_ok (hcurrent.size_counts.symm ▸ hi)
  · rw [hcount, hfirst]

/-- **Comparing every two candidates once fills the tables in**, and finds the first front
on the way. -/
theorem ofMatrix_eq_ok (m : FitnessMatrix α) :
    ofMatrix m
      = .ok ⟨dominatorCounts m, Pairwise.beaten m, firstFront m (dominatorCounts m)⟩ := by
  have hturn (i : Nat) (t : Tally) (hi : i < m.size)
      (ht : t.IsCurrent m (progress m.size i i)
        ∧ t.first = (List.range i).filter fun k => dominatorCount m k = 0) :
      ∃ t', meetLater m t i = .ok t' ∧ t'.IsCurrent m (progress m.size (i + 1) (i + 1))
        ∧ t'.first = (List.range (i + 1)).filter fun k => dominatorCount m k = 0 := by
    obtain ⟨t', ht', hcurrent, hfirst⟩ := ht.1.exists_meetLater hvalues hi
    refine ⟨t', ht', hcurrent, ?_⟩
    rw [hfirst, ht.2, List.range_succ, List.filter_append]
    by_cases hzero : dominatorCount m i = 0
    · simp [hzero]
    · simp [hzero]
  obtain ⟨t, ht, hcurrent, hfirst⟩ := exists_foldlM_range'_eq_ok 0 m.size
    (fun i t _ hi ht => hturn i t (Nat.zero_add m.size ▸ hi) ht) ⟨isCurrent_start m, rfl⟩
  rw [Nat.zero_add] at hcurrent hfirst
  have hall : ∀ k < m.size, progress m.size m.size m.size k = m.size := fun k hk => if_pos hk
  have hcounts : t.counts = dominatorCounts m := by
    refine eq_of_getD_eq 0 ?_ fun k hk => ?_
    · rw [hcurrent.size_counts, size_dominatorCounts]
    · rw [hcurrent.size_counts] at hk
      rw [hcurrent.getD_counts k hk, hall k hk, getD_dominatorCounts m hk]
      rfl
  have hbeaten : t.beaten = Pairwise.beaten m := by
    refine eq_of_getD_eq [] ?_ fun k hk => ?_
    · rw [hcurrent.size_beaten, size_beaten]
    · rw [hcurrent.size_beaten] at hk
      rw [hcurrent.getD_beaten k hk, hall k hk, Pairwise.getD_beaten m hk]
      rfl
  have hfront : t.first = firstFront m (dominatorCounts m) := by
    rw [hfirst]
    refine List.filter_congr fun k hk => ?_
    rw [getD_dominatorCounts m (List.mem_range.1 hk)]
  rw [← hfront, ← hbeaten, ← hcounts]
  exact ht

end Values

end Tally

end ParetoSelection
