import ParetoSelection.Fronts.Rounds
import ParetoSelection.Proofs.Access
import ParetoSelection.Proofs.Fronts.Peeling

/-!
# The rounds come to an end

A finder that returns some of the candidates it is given, and at least one, makes every
round remove somebody. So there is a last round, after as many fronts as `peel` finds, and
nobody remains after it (`exists_runs`).

What holds between two rounds is `Peeling.IsSound`: who is marked is who does not remain,
and the rank of everybody who does not remain is the place of the front that they are in.
All members of a front are candidates, so no round reads or writes outside the stores
(`IsSound.round`).

A round that takes nobody out comes again, and again nobody is taken out, for a finder finds
the same front among the same candidates. So there is a run exactly where `Peeling.run` finds
one (`run_eq_ok_iff`), whatever the finder, and there is no second one.
-/

namespace ParetoSelection

/-! ## One round -/

/-- Those who are not marked are read off the marks. -/
theorem unplaced_eq_filter {placed : Array Bool} {candidates : List Nat}
    (h : ∀ i ∈ candidates, i < placed.size) :
    Peeling.unplaced placed candidates
      = .ok (candidates.filter fun i => !placed.getD i false) := by
  induction candidates with
  | nil => rfl
  | cons i candidates ih =>
    rw [Peeling.unplaced, readAt_eq_getD (h i List.mem_cons_self) false,
      ih fun k hk => h k (List.mem_cons_of_mem i hk), List.filter_cons]
    cases placed.getD i false <;> rfl

namespace Peeling

variable {n : Nat} {s : Peeling}

/-- **What holds between two rounds** of peeling `n` candidates. -/
structure IsSound (n : Nat) (s : Peeling) : Prop where
  /-- Everybody has a rank. -/
  size_ranks : s.ranks.size = n
  /-- Everybody has a mark or none. -/
  size_placed : s.placed.size = n
  /-- Nobody remains twice. -/
  nodup : s.remaining.Nodup
  /-- Those who remain are candidates. -/
  lt : ∀ i ∈ s.remaining, i < n
  /-- Who is marked does not remain. -/
  placed_iff : ∀ i < n, s.placed.getD i false = true ↔ i ∉ s.remaining
  /-- Who does not remain is in the front at their rank. -/
  mem_front : ∀ i < n, i ∉ s.remaining → i ∈ s.fronts.getD (s.ranks.getD i 0) []

/-- Those who remain are some of the candidates. -/
theorem IsSound.remaining_subset (h : s.IsSound n) : s.remaining ⊆ List.range n :=
  fun i hi => List.mem_range.2 (h.lt i hi)

/-- It holds to start with. -/
theorem isSound_start (n : Nat) : (start n).IsSound n where
  size_ranks := Array.size_replicate
  size_placed := Array.size_replicate
  nodup := List.nodup_range
  lt _ hi := List.mem_range.1 hi
  placed_iff i hi := by
    have hmem : i ∈ (start n).remaining := List.mem_range.2 hi
    have hget : (start n).placed.getD i false = false := by
      show (Array.replicate n false).getD i false = false
      rw [Array.getD_eq_getD_getElem?, Array.getElem?_replicate, if_pos hi, Option.getD_some]
    rw [hget]
    exact iff_of_false Bool.false_ne_true (not_not_intro hmem)
  mem_front i hi hnot := absurd (List.mem_range.2 hi) hnot

/-- Once a front is marked along with the earlier ones, those who are not marked are those who
remain without it. -/
theorem IsSound.unplaced_eq_ok (h : s.IsSound n) {front : List Nat} {placed : Array Bool}
    (hsize : placed.size = n)
    (hmark : ∀ i < n, placed.getD i false = if i ∈ front then true else s.placed.getD i false) :
    unplaced placed s.remaining = .ok (without front s.remaining) := by
  rw [unplaced_eq_filter fun i hi => hsize.symm ▸ h.lt i hi, without]
  refine congrArg Except.ok (List.filter_congr fun i hi => congrArg not ?_)
  rw [hmark i (h.lt i hi)]
  by_cases hmem : i ∈ front
  · rw [if_pos hmem, List.contains_iff_mem.2 hmem]
  · have hnot : ¬ s.placed.getD i false = true := fun hi' =>
      (h.placed_iff i (h.lt i hi)).1 hi' hi
    rw [if_neg hmem, Bool.eq_false_iff.2 hnot, List.contains_eq_mem, decide_eq_false hmem]

/-- **A round finds its front and keeps things sound**, if its finder returns some of those
who remain. -/
theorem IsSound.round (h : s.IsSound n) {finder : List Nat → Except Failure (List Nat)}
    {front : List Nat} (hfront : finder s.remaining = .ok front)
    (hsub : front.Subperm s.remaining) :
    ∃ s', s.round finder = .ok s' ∧ s'.IsSound n ∧ s'.remaining = without front s.remaining ∧
      s'.fronts = s.fronts ++ [front] := by
  have hlt (i : Nat) (hi : i ∈ front) : i < n := h.lt i (hsub.subset hi)
  obtain ⟨ranks, hranks, hsizeRanks, hrank⟩ := writeAll_eq_ok s.fronts.length
    fun i hi => h.size_ranks.symm ▸ hlt i hi
  obtain ⟨placed, hplaced, hsizePlaced, hmark⟩ := writeAll_eq_ok true
    fun i hi => h.size_placed.symm ▸ hlt i hi
  rw [h.size_ranks] at hsizeRanks
  rw [h.size_placed] at hsizePlaced
  have hunplaced := h.unplaced_eq_ok hsizePlaced fun i _ => hmark false i
  refine ⟨⟨without front s.remaining, ranks, placed, s.fronts ++ [front]⟩, ?_, ?_, rfl, rfl⟩
  · rw [Peeling.round, hfront, ok_bind, hranks, ok_bind, hplaced, ok_bind, hunplaced]
    rfl
  · refine ⟨hsizeRanks, hsizePlaced, h.nodup.filter _, fun i hi => ?_, fun i hi => ?_,
      fun i hi hnot => ?_⟩
    · exact h.lt i (mem_without.1 hi).1
    · rw [hmark false i, mem_without, not_and_not_right]
      by_cases hmem : i ∈ front
      · rw [if_pos hmem]
        exact iff_of_true rfl fun _ => hmem
      · rw [if_neg hmem, h.placed_iff i hi]
        exact ⟨fun hnot hi => absurd hi hnot, fun himp hi => hmem (himp hi)⟩
    · rw [mem_without, not_and_not_right] at hnot
      show i ∈ (s.fronts ++ [front]).getD (ranks.getD i 0) []
      rw [hrank 0 i]
      by_cases hmem : i ∈ front
      · rw [if_pos hmem, List.getD_append_right _ _ _ _ (Nat.le_refl _), Nat.sub_self]
        exact hmem
      · -- who was not in this front is in an earlier one
        have hearlier := h.mem_front i hi fun hi' => hmem (hnot hi')
        rw [if_neg hmem, List.getD_append _ _ _ _ (lt_length_of_mem_getD hearlier)]
        exact hearlier

/-! ## All rounds -/

/-- Whoever is left over is one of those who were there. -/
theorem unplaced_sublist {placed : Array Bool} {candidates rest : List Nat}
    (h : unplaced placed candidates = .ok rest) : rest.Sublist candidates := by
  induction candidates generalizing rest with
  | nil =>
    cases h
    exact List.Sublist.refl _
  | cons i candidates ih =>
    rw [unplaced] at h
    obtain ⟨isPlaced, -, h⟩ := exists_of_bind_eq_ok h
    obtain ⟨others, hothers, h⟩ := exists_of_bind_eq_ok h
    cases h
    split
    · exact (ih hothers).cons i
    · exact (ih hothers).cons_cons i

/-- What a round does, one step after the other. -/
theorem of_round_eq_ok {finder : List Nat → Except Failure (List Nat)} {s' : Peeling}
    (h : s.round finder = .ok s') :
    ∃ front, finder s.remaining = .ok front ∧ writeAll s.placed true front = .ok s'.placed ∧
      unplaced s'.placed s.remaining = .ok s'.remaining := by
  rw [Peeling.round] at h
  obtain ⟨front, hfront, h⟩ := exists_of_bind_eq_ok h
  obtain ⟨ranks, -, h⟩ := exists_of_bind_eq_ok h
  obtain ⟨placed, hplaced, h⟩ := exists_of_bind_eq_ok h
  obtain ⟨remaining, hremaining, h⟩ := exists_of_bind_eq_ok h
  cases h
  exact ⟨front, hfront, hplaced, hremaining⟩

/-- A round that leaves everybody is followed by another one that does. -/
theorem remaining_eq_of_round {finder : List Nat → Except Failure (List Nat)} {s' s'' : Peeling}
    (h : s.round finder = .ok s') (hsame : s'.remaining = s.remaining)
    (h' : s'.round finder = .ok s'') : s''.remaining = s'.remaining := by
  obtain ⟨front, hfront, hplaced, hunplaced⟩ := of_round_eq_ok h
  obtain ⟨front', hfront', hplaced', hunplaced'⟩ := of_round_eq_ok h'
  rw [hsame, hfront] at hfront'
  obtain rfl := Except.ok.inj hfront'
  rw [writeAll_writeAll hplaced] at hplaced'
  rw [← Except.ok.inj hplaced', hsame, hunplaced] at hunplaced'
  rw [← Except.ok.inj hunplaced']

/-- **There is no last round** after one that leaves everybody. -/
theorem not_runs_of_remaining_eq {finder : List Nat → Except Failure (List Nat)} {s' t : Peeling}
    (hsome : s.remaining ≠ []) (hround : s.round finder = .ok s')
    (hsame : s'.remaining = s.remaining) : ¬ Runs finder s' t := by
  intro hrun
  induction hrun generalizing s with
  | done hnone => exact hsome (hsame ▸ hnone)
  | next hsome' hround' _ ih =>
    exact ih hsome' hround' (remaining_eq_of_round hround hsame hround')

/-- **The rounds come to an end exactly where `run` finds it.** -/
theorem run_eq_ok_iff {finder : List Nat → Except Failure (List Nat)} {t : Peeling} :
    s.run finder = .ok t ↔ Runs finder s t := by
  constructor
  · intro h
    fun_induction Peeling.run finder s with
    | case1 s hnone =>
      cases h
      exact .done hnone
    | case2 s hsome e hround => cases h
    | case3 s hsome s' hround hlt ih => exact .next hsome hround (ih h)
    | case4 s hsome s' hround hnot => cases h
  · intro h
    induction h with
    | done hnone => rw [Peeling.run, if_pos hnone]
    | @next s s' t hsome hround hrun ih =>
      rw [Peeling.run, if_neg hsome, hround]
      obtain ⟨-, -, -, hunplaced⟩ := of_round_eq_ok hround
      have hsub := unplaced_sublist hunplaced
      have hlt : s'.remaining.length < s.remaining.length := by
        by_contra hnot
        exact not_runs_of_remaining_eq hsome hround (hsub.eq_of_length_le (Nat.le_of_not_lt hnot))
          hrun
      exact (if_pos hlt).trans ih

/-- **There is a last round**, and the fronts found until then are those that peeling finds,
if the finder selects from whatever candidates it is given. -/
theorem IsSound.exists_runs (h : s.IsSound n) {finder : List Nat → Except Failure (List Nat)}
    {select : List Nat → List Nat}
    (hfinder : ∀ xs, xs ⊆ List.range n →
      finder xs = .ok (select xs) ∧ IsSelection xs (select xs)) :
    ∃ t, Runs finder s t ∧ t.IsSound n ∧ t.remaining = [] ∧
      t.fronts = s.fronts ++ peel select s.remaining := by
  obtain ⟨remaining, hremaining⟩ : ∃ xs, xs = s.remaining := ⟨_, rfl⟩
  rw [← hremaining]
  fun_induction peel select remaining generalizing s with
  | case1 remaining front hlt =>
    rename_i ih
    subst hremaining
    obtain ⟨hfront, hselect⟩ := hfinder s.remaining h.remaining_subset
    obtain ⟨s', hround, hs', hremaining', hfronts⟩ := h.round hfront hselect.subperm
    obtain ⟨t, hrun, ht, hnone, heq⟩ := ih hs' hremaining'.symm
    refine ⟨t, .next ?_ hround hrun, ht, hnone, ?_⟩
    · intro hnil
      rw [hnil] at hlt
      exact Nat.not_lt_zero _ hlt
    · rw [heq, hfronts, List.append_assoc]
      rfl
  | case2 remaining front =>
    rename_i hlt
    subst hremaining
    have hnil := (hfinder s.remaining h.remaining_subset).2.eq_nil_of_not_lt hlt
    exact ⟨s, .done hnil, h, hnil, (List.append_nil _).symm⟩

/-- **The ranks that the rounds leave are those of the fronts**, if nobody is in two of
them. -/
theorem IsSound.ranks_eq (h : s.IsSound n) (hnone : s.remaining = [])
    (hnodup : s.fronts.flatten.Nodup) :
    (⟨n, s.fronts⟩ : RankedFronts).ranks = s.ranks.toList := by
  have hrank (i : Nat) (hi : i < n) :
      (⟨n, s.fronts⟩ : RankedFronts).rank i = s.ranks.getD i 0 :=
    RankedFronts.rank_eq_of_mem (r := ⟨n, s.fronts⟩) hnodup
      (h.mem_front i hi (hnone ▸ List.not_mem_nil))
  have hranks : (⟨n, s.fronts⟩ : RankedFronts).ranks
      = (List.range n).map fun i => s.ranks.toList.getD i 0 := by
    refine List.map_congr_left fun i hi => (hrank i (List.mem_range.1 hi)).trans ?_
    rw [Array.getD_eq_getD_getElem?, ← Array.getElem?_toList, List.getD_eq_getElem?_getD]
  rw [hranks, ← h.size_ranks, ← Array.length_toList, map_getD_range]

end Peeling

end ParetoSelection
