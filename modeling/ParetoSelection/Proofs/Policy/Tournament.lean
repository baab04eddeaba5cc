import ParetoSelection.Proofs.Binary64.Order
import ParetoSelection.Proofs.Policy.Settings
import ParetoSelection.Proofs.Policy.Truncation

/-!
# Winners of tournaments are unbeaten

A parent is drawn by a tournament, and each policy has its own: by one objective a list of
candidates is gone through, and the first of the fittest wins; NSGA-II prefers the first of
two candidates on a tie, and NSGA-III the second, unless a coin decides. What they have in
common is that the winner is one of those who are drawn, and that none of these beats it
(`Policy.IsTournament`).

Beating is asymmetric, and not more than that: distances may be NaN, which beats nothing and
is not beaten. For a pair of candidates that is enough. To go through a list and remember who
is best takes an order, so the fitness of those in it must not be NaN.

There is a tournament to speak of because a policy is only built for at least one participant,
and stays one (`Policy.validate_settings`).
-/

namespace ParetoSelection

open SplitMix

/-! ## The first of the fittest -/

namespace SingleObjective

section Keyed

variable {α κ : Type} [Scalar α] [LinearOrder κ] {key : α → κ} {known : α → Prop}
  {m : FitnessMatrix α}

/-- **The fittest of some candidates**, `first` among them, and the earliest where two are
equally fit. -/
def fittest (m : FitnessMatrix α) (first : Nat) (rest : List Nat) : Nat :=
  rest.foldl (fun best i => if fitness m best < fitness m i then i else best) first

/-- **The candidate between others is the first of the fittest**: those before are less fit,
and those after are not fitter. -/
structure IsFirstFittest (m : FitnessMatrix α) (before : List Nat) (winner : Nat)
    (after : List Nat) : Prop where
  /-- Those before are less fit. -/
  lt : ∀ i ∈ before, fitness m i < fitness m winner
  /-- Those after are not fitter. -/
  le : ∀ i ∈ after, fitness m i ≤ fitness m winner

/-- **One more candidate** takes the place of the fittest, or stands behind it. -/
theorem IsFirstFittest.concat (hkeyed : IsKeyed key known) (hknown : ∀ i, known (fitness m i))
    {before after : List Nat} {best : Nat} (h : IsFirstFittest m before best after) (i : Nat) :
    (fitness m best < fitness m i → IsFirstFittest m (before ++ best :: after) i [])
      ∧ (¬ fitness m best < fitness m i → IsFirstFittest m before best (after ++ [i])) := by
  have hlt_iff {i k : Nat} : fitness m i < fitness m k ↔ key (fitness m i) < key (fitness m k) :=
    hkeyed.lt_iff (hknown i) (hknown k)
  have hle_iff {i k : Nat} : fitness m i ≤ fitness m k ↔ key (fitness m i) ≤ key (fitness m k) :=
    hkeyed.le_iff (hknown i) (hknown k)
  constructor
  · refine fun hfitter => ⟨fun k hk => ?_, nofun⟩
    have hle : key (fitness m k) ≤ key (fitness m best) := by
      obtain hbefore | hrest := List.mem_append.1 hk
      · exact le_of_lt (hlt_iff.1 (h.lt k hbefore))
      · obtain rfl | hafter := List.mem_cons.1 hrest
        · exact le_rfl
        · exact hle_iff.1 (h.le k hafter)
    exact hlt_iff.2 (lt_of_le_of_lt hle (hlt_iff.1 hfitter))
  · refine fun hnot => ⟨h.lt, fun k hk => ?_⟩
    obtain hafter | hlast := List.mem_append.1 hk
    · exact h.le k hafter
    · rw [List.mem_singleton.1 hlast]
      exact hle_iff.2 (not_lt.1 (mt hlt_iff.2 hnot))

/-- **One pass finds the first of the fittest**, if their fitness can be compared; it finds
one of the candidates in any case. -/
theorem exists_eq_append_fittest (hkeyed : IsKeyed key known) (m : FitnessMatrix α) (first : Nat)
    (rest : List Nat) :
    ∃ before after, first :: rest = before ++ fittest m first rest :: after
      ∧ ((∀ i, known (fitness m i)) → IsFirstFittest m before (fittest m first rest) after) := by
  induction rest using List.reverseRecOn with
  | nil => exact ⟨[], [], rfl, fun _ => ⟨nofun, nofun⟩⟩
  | append_singleton rest i ih =>
    obtain ⟨before, after, hsplit, hfirst⟩ := ih
    have hstep : fittest m first (rest ++ [i])
        = if fitness m (fittest m first rest) < fitness m i then i
          else fittest m first rest := by
      unfold fittest
      rw [List.foldl_concat]
    rw [hstep, ← List.cons_append, hsplit]
    split
    · rename_i hfitter
      exact ⟨_, [], rfl, fun hknown => ((hfirst hknown).concat hkeyed hknown i).1 hfitter⟩
    · rename_i hnot
      refine ⟨before, after ++ [i], ?_, fun hknown =>
        ((hfirst hknown).concat hkeyed hknown i).2 hnot⟩
      rw [List.append_assoc, List.cons_append]

end Keyed

/-! ## Several participants -/

variable {α : Type} [Scalar α] {m : FitnessMatrix α}

/-- **The rounds of a tournament** go through what is drawn. -/
theorem playRounds_eq [SplitMix.Sampler] (m : FitnessMatrix α) (n rounds best : Nat)
    (g : SplitMix) :
    playRounds m n rounds best g
      = (fittest m best (series (below n) rounds g).1, (series (below n) rounds g).2) := by
  induction rounds generalizing best g with
  | zero => rfl
  | succ rounds ih => exact ih _ _

/-- **A tournament is won by the fittest** of those who are drawn. -/
theorem exists_tournament_eq [SplitMix.Sampler] (m : FitnessMatrix α) {n participants : Nat}
    (hparticipants : participants ≠ 0) (g : SplitMix) :
    ∃ first others rest, series (below n) participants g = (first :: others, rest)
      ∧ tournament m n participants g = (fittest m first others, rest) := by
  obtain ⟨rounds, rfl⟩ := Nat.exists_eq_succ_of_ne_zero hparticipants
  exact ⟨_, _, _, rfl, playRounds_eq m n rounds _ _⟩

omit [Scalar α] in
/-- A matrix to draw from that passes the checks has a row, and as many as the settings ask
for. -/
theorem of_checkDraw_eq_ok {p : SingleObjective} (h : checkDraw m p = .ok ()) :
    0 < m.size ∧ m.size = p.settings.populationSize := by
  obtain ⟨⟨⟩, -, h⟩ := exists_of_bind_eq_ok h
  obtain ⟨⟨⟩, hone, hsize⟩ := exists_of_bind_eq_ok h
  obtain ⟨dim, hcount, -⟩ := exists_of_bind_eq_ok hone
  refine ⟨(FitnessMatrix.of_objectiveCount_eq_ok hcount).1, Decidable.of_not_not fun hne => ?_⟩
  rw [if_pos hne] at hsize
  cases hsize

/-- A parent that is drawn has won a tournament among the candidates of the matrix. -/
theorem of_drawParent_eq_ok [SplitMix.Sampler] {p after : SingleObjective} {winner : Nat}
    (h : p.drawParent m = (.ok winner, after)) :
    0 < m.size ∧ ∃ rest, after = { p with generator := rest }
      ∧ tournament m m.size p.settings.tournamentSize p.generator = (winner, rest) := by
  unfold drawParent at h
  split at h
  · cases h
  · rename_i hcheck
    obtain ⟨hpos, hsize⟩ := of_checkDraw_eq_ok hcheck
    obtain ⟨hwinner, hafter⟩ := Prod.mk.inj h
    refine ⟨hpos, _, hafter.symm, ?_⟩
    rw [hsize]
    exact Prod.ext (Except.ok.inj hwinner) rfl

end SingleObjective

/-! ## Two participants -/

section Pairs

variable {α : Type} [Scalar α]

/-- **One standing beats another**: its rank is lower, or the ranks are the same and its
crowding distance is larger. -/
def Standing.Beats (a b : Standing α) : Prop :=
  a.rank < b.rank ∨ a.rank = b.rank ∧ b.crowding < a.crowding

/-- **One association beats another** with the same direction: its rank is lower, or the ranks
are the same and it is closer. -/
def Association.Beats (a b : Association α) : Prop :=
  a.rank < b.rank ∨ a.rank = b.rank ∧ a.distance < b.distance

/-- A standing is preferred if it beats the other one. -/
theorem Standing.isPreferred_iff {a b : Standing α} : a.isPreferred b = true ↔ a.Beats b := by
  unfold isPreferred Beats
  rw [Bool.or_eq_true, Bool.and_eq_true, decide_eq_true_iff, decide_eq_true_iff,
    decide_eq_true_iff]

/-- The comparison of two associations is whether the first beats the second. -/
theorem Association.preferred_iff {a b : Association α} :
    (if a.rank ≠ b.rank then decide (a.rank < b.rank) else decide (a.distance < b.distance)) = true
      ↔ a.Beats b := by
  unfold Beats
  split
  · rename_i hrank
    rw [decide_eq_true_iff, or_iff_left fun h => hrank h.1]
  · rename_i hrank
    have hsame : a.rank = b.rank := Decidable.of_not_not hrank
    rw [decide_eq_true_iff, or_iff_right fun h => Nat.ne_of_lt h hsame, and_iff_right hsame]

/-- Of two pairs of ranks and reasons not both decide in their own favour. -/
theorem not_beats_of_beats {r s : Nat} {P Q : Prop} (hnot : P → ¬ Q) (h : r < s ∨ r = s ∧ P) :
    ¬ (s < r ∨ s = r ∧ Q) := by
  rintro (hrank | ⟨hrank, hreason⟩)
  · obtain h | ⟨h, -⟩ := h <;> omega
  · obtain h | ⟨-, h⟩ := h
    · omega
    · exact hnot h hreason

/-- Of two standings not both beat the other. -/
theorem Standing.Beats.asymm {a b : Standing Binary64} (h : a.Beats b) : ¬ b.Beats a :=
  not_beats_of_beats (fun h h' => Binary64.not_lt_self _ (Binary64.lt_of_lt_of_lt h h')) h

/-- Of two associations not both beat the other. -/
theorem Association.Beats.asymm {a b : Association Binary64} (h : a.Beats b) : ¬ b.Beats a :=
  not_beats_of_beats (fun h h' => Binary64.not_lt_self _ (Binary64.lt_of_lt_of_lt h h')) h

end Pairs

namespace Nsga2

/-- **The winner of the crowded tournament** is one of the two, and neither beats it. -/
theorem crowdedWinner_unbeaten (standings : Array (Standing Binary64)) (i j : Nat) :
    crowdedWinner standings i j ∈ [i, j]
      ∧ ∀ k ∈ [i, j], ¬ (standings.getD k .lost).Beats
          (standings.getD (crowdedWinner standings i j) .lost) := by
  unfold crowdedWinner
  split
  · rename_i hpreferred
    rw [Standing.isPreferred_iff] at hpreferred
    refine ⟨List.mem_cons_of_mem i List.mem_cons_self, List.forall_mem_cons.2 ⟨?_, ?_⟩⟩
    · exact hpreferred.asymm
    · exact List.forall_mem_singleton.2 fun h => h.asymm h
  · rename_i hnot
    rw [Standing.isPreferred_iff] at hnot
    refine ⟨List.mem_cons_self, List.forall_mem_cons.2 ⟨fun h => h.asymm h, ?_⟩⟩
    exact List.forall_mem_singleton.2 hnot

/-- A parent that is drawn has won a crowded tournament among the candidates of the matrix. -/
theorem of_drawParent_eq_ok [SplitMix.Sampler] {α : Type} [Scalar α] {m : FitnessMatrix α}
    {p after : Nsga2 α} {winner : Nat} (h : p.drawParent m = (.ok winner, after)) :
    0 < m.size ∧ ∃ standings i j rest, p.standings = some standings ∧ standings.size = m.size
      ∧ series (below m.size) 2 p.generator = ([i, j], rest)
      ∧ after = { p with generator := rest } ∧ winner = crowdedWinner standings i j := by
  unfold drawParent at h
  split at h
  · cases h
  · rename_i standings hcheck
    obtain ⟨hsome, hsize⟩ := of_checkDraw_eq_ok hcheck
    split at h
    · cases h
    · rename_i hpos
      obtain ⟨hwinner, hafter⟩ := Prod.mk.inj h
      rw [hsize]
      exact ⟨Nat.pos_of_ne_zero hpos, standings, _, _, _, hsome, rfl, rfl, hafter.symm,
        (Except.ok.inj hwinner).symm⟩

end Nsga2

/-- A word has its top bit set if it is not in the lower half of all words. -/
theorem SplitMix.shiftRight_eq_one_iff (w : UInt64) :
    w >>> 63 = 1 ↔ 0x8000000000000000 ≤ w := by
  rw [← UInt64.toNat_inj, UInt64.le_iff_toNat_le, UInt64.toNat_shiftRight,
    Nat.shiftRight_eq_div_pow]
  have hlt := w.toNat_lt
  show w.toNat / 9223372036854775808 = 1 ↔ 9223372036854775808 ≤ w.toNat
  omega

namespace Nsga3

/-- **The winner among two candidates of the same direction** is one of them, and neither
beats it; no coin is tossed. -/
theorem nichedWinner_unbeaten {members : Array (Association Binary64)} {i j : Nat}
    (h : (Association.lookUp members i).direction = (Association.lookUp members j).direction)
    (g : SplitMix) :
    ∃ winner ∈ [i, j], nichedWinner members i j g = (winner, g)
      ∧ ∀ k ∈ [i, j], ¬ (Association.lookUp members k).Beats
          (Association.lookUp members winner) := by
  unfold nichedWinner
  dsimp only
  rw [if_pos h]
  by_cases hbeats : (Association.lookUp members i).Beats (Association.lookUp members j)
  · rw [if_pos (Association.preferred_iff.2 hbeats)]
    refine ⟨i, List.mem_cons_self, rfl, List.forall_mem_cons.2 ⟨fun h => h.asymm h, ?_⟩⟩
    exact List.forall_mem_singleton.2 hbeats.asymm
  · rw [if_neg (mt Association.preferred_iff.1 hbeats)]
    refine ⟨j, List.mem_cons_of_mem i List.mem_cons_self, rfl, List.forall_mem_cons.2 ⟨hbeats, ?_⟩⟩
    exact List.forall_mem_singleton.2 fun h => h.asymm h

/-- **The winner among two candidates of different directions** is the first one if the top bit
of the next output is set, and else the second one. -/
theorem nichedWinner_of_ne {α : Type} [Scalar α] {members : Array (Association α)} {i j : Nat}
    (h : (Association.lookUp members i).direction ≠ (Association.lookUp members j).direction)
    (g : SplitMix) :
    nichedWinner members i j g
      = (if 0x8000000000000000 ≤ g.next.1 then i else j, g.next.2) := by
  unfold nichedWinner
  dsimp only
  rw [if_neg h]
  refine Prod.ext (if_congr ?_ rfl rfl) rfl
  exact decide_eq_true_iff.trans (shiftRight_eq_one_iff g.next.1)

/-- A parent that is drawn has won a niched tournament among the candidates of the matrix. -/
theorem of_drawParent_eq_ok [SplitMix.Sampler] {α : Type} [Scalar α] {m : FitnessMatrix α}
    {p after : Nsga3 α} {winner : Nat} (h : p.drawParent m = (.ok winner, after)) :
    0 < m.size ∧ ∃ r i j toss rest, p.run = some r ∧ r.members.size = m.size
      ∧ series (below m.size) 2 p.generator = ([i, j], toss)
      ∧ after = { p with generator := rest }
      ∧ nichedWinner r.members i j toss = (winner, rest) := by
  unfold drawParent at h
  split at h
  · cases h
  · rename_i r hcheck
    obtain ⟨hsome, hsize⟩ := of_checkDraw_eq_ok hcheck
    split at h
    · cases h
    · rename_i hpos
      obtain ⟨hwinner, hafter⟩ := Prod.mk.inj h
      rw [hsize]
      exact ⟨Nat.pos_of_ne_zero hpos, r, _, _, _, _, hsome, rfl, rfl, hafter.symm,
        Prod.ext (Except.ok.inj hwinner) rfl⟩

end Nsga3

namespace Policy

/-! ## Tournaments -/

/-- **A tournament of a policy** among the candidates of `m`: who is drawn from the generator
`g`, which of them is the `winner`, and the generator `rest` that is left. -/
inductive IsTournament [SplitMix.Sampler] (m : FitnessMatrix Binary64) (g rest : SplitMix)
    (winner : Nat) :
    Policy Binary64 → Prop where
  /-- By one objective, with as many participants as the settings ask for: as long as there is
  no NaN among the values, those who are drawn before the winner are less fit, and those who
  are drawn after it are not fitter. -/
  | singleObjective {p : SingleObjective} {before after : List Nat}
      (drawn : series (below m.size) p.settings.tournamentSize g
        = (before ++ winner :: after, rest))
      (lt_size : ∀ i ∈ before ++ winner :: after, i < m.size)
      (isFirstFittest : (∀ i < m.size, (SingleObjective.fitness m i).isNaN = false) →
        SingleObjective.IsFirstFittest m before winner after) :
      IsTournament m g rest winner (.singleObjective p)
  /-- By rank and crowding distance. -/
  | nsga2 {p : Nsga2 Binary64} {standings : Array (Standing Binary64)} {i j : Nat}
      (standings_eq : p.standings = some standings) (size_eq : standings.size = m.size)
      (drawn : series (below m.size) 2 g = ([i, j], rest))
      (lt_size : ∀ k ∈ [i, j], k < m.size) (mem : winner ∈ [i, j])
      (unbeaten : ∀ k ∈ [i, j],
        ¬ (standings.getD k .lost).Beats (standings.getD winner .lost)) :
      IsTournament m g rest winner (.nsga2 p)
  /-- By rank and distance to a direction that both have. -/
  | nsga3 {p : Nsga3 Binary64} {r : Nsga3.Run Binary64} {i j : Nat} (run_eq : p.run = some r)
      (size_eq : r.members.size = m.size)
      (direction_eq : (Association.lookUp r.members i).direction
        = (Association.lookUp r.members j).direction)
      (drawn : series (below m.size) 2 g = ([i, j], rest))
      (lt_size : ∀ k ∈ [i, j], k < m.size) (mem : winner ∈ [i, j])
      (unbeaten : ∀ k ∈ [i, j],
        ¬ (Association.lookUp r.members k).Beats (Association.lookUp r.members winner)) :
      IsTournament m g rest winner (.nsga3 p)
  /-- By a coin, if they have different directions: by the top bit of one more output. -/
  | toss {p : Nsga3 Binary64} {r : Nsga3.Run Binary64} {i j : Nat} {toss : SplitMix}
      {output : UInt64} (run_eq : p.run = some r) (size_eq : r.members.size = m.size)
      (direction_ne : (Association.lookUp r.members i).direction
        ≠ (Association.lookUp r.members j).direction)
      (drawn : series (below m.size) 2 g = ([i, j], toss))
      (lt_size : ∀ k ∈ [i, j], k < m.size) (next_eq : toss.next = (output, rest))
      (winner_eq : winner = if 0x8000000000000000 ≤ output then i else j) :
      IsTournament m g rest winner (.nsga3 p)

/-- A parent that is accepted is passed on. -/
theorem of_checkSelected_eq_ok {population i k : Nat} (h : checkSelected population i = .ok k) :
    i = k := by
  unfold checkSelected at h
  split at h
  · cases h
  · exact Except.ok.inj h

/-- A parent that is drawn at the boundary has been drawn behind it. -/
theorem drawUnchecked_of_perform_draw [SplitMix.Sampler] {α : Type} [Scalar α] {p after : Policy α}
    {checked : Bool}
    {m : FitnessMatrix α} {i : Nat}
    (h : p.perform checked (.draw m) = (.ok (.parent i), after)) :
    p.drawUnchecked m = (.ok i, after) := by
  obtain ⟨hanswer, hafter⟩ := Prod.mk.inj h
  obtain ⟨k, hdrawn, hreply⟩ := exists_of_map_eq_ok hanswer
  obtain rfl : k = i := Reply.parent.inj hreply
  cases checked with
  | false => exact Prod.ext hdrawn hafter
  | true =>
    obtain ⟨l, hunchecked, haccepted⟩ := exists_of_bind_eq_ok hdrawn
    obtain rfl : l = k := of_checkSelected_eq_ok haccepted
    exact Prod.ext hunchecked hafter

/-- No value of a matrix without NaN is one, and neither is what stands for a missing one. -/
theorem isNumber_fitness {m : FitnessMatrix Binary64}
    (h : ∀ i < m.size, (SingleObjective.fitness m i).isNaN = false) (i : Nat) :
    (SingleObjective.fitness m i).IsNumber := by
  by_cases hi : i < m.size
  · exact Binary64.isNaN_eq_false_iff.1 (h i hi)
  · have hmissing : SingleObjective.fitness m i = 0 := by
      rw [SingleObjective.fitness, FitnessMatrix.row, Array.getD_eq_getD_getElem?,
        Array.getElem?_eq_none (Nat.le_of_not_lt hi), Option.getD_none, List.headD_nil]
    rw [hmissing]
    exact Binary64.isNaN_eq_false_iff.1 (by decide +kernel)

/-- **Winners of tournaments are unbeaten.** A policy that returns a parent, after any requests
and with its generator in any state, at the boundary or behind it, is afterwards the same but
for the generator, and the parent has won a tournament: it is one of the candidates drawn, and
none of these beats it. -/
theorem isTournament_of_perform_draw [SplitMix.Sampler] {p after : Policy Binary64}
    {dim : Option Nat}
    (h : p.Reachable dim) {g : SplitMix} {checked : Bool} {m : FitnessMatrix Binary64}
    {winner : Nat}
    (hdraw : (p.reseed g).perform checked (.draw m) = (.ok (.parent winner), after)) :
    ∃ rest, after = p.reseed rest ∧ IsTournament m g rest winner p := by
  have hdrawn := drawUnchecked_of_perform_draw hdraw
  cases p with
  | singleObjective p =>
    have hparticipants : p.settings.tournamentSize ≠ 0 :=
      (of_validate_eq_ok (validate_settings h)).2.1
    obtain ⟨hwinner, rfl⟩ := Prod.mk.inj hdrawn
    obtain ⟨hpos, rest, hafter, htournament⟩ :=
      SingleObjective.of_drawParent_eq_ok (Prod.ext hwinner rfl)
    obtain ⟨first, others, rest', hseries, hfittest⟩ :=
      SingleObjective.exists_tournament_eq m (n := m.size) hparticipants g
    obtain ⟨before, later, hsplit, hfirst⟩ :=
      SingleObjective.exists_eq_append_fittest Binary64.isKeyed_grade m first others
    obtain ⟨rfl, rfl⟩ := Prod.mk.inj (hfittest.symm.trans htournament)
    rw [hsplit] at hseries
    refine ⟨rest', congrArg Policy.singleObjective hafter, .singleObjective hseries ?_ ?_⟩
    · have hlt := lt_of_mem_series_below hpos p.settings.tournamentSize g
      rwa [hseries] at hlt
    · exact fun hnumbers => hfirst (isNumber_fitness hnumbers)
  | nsga2 p =>
    obtain ⟨hwinner, rfl⟩ := Prod.mk.inj hdrawn
    obtain ⟨hpos, standings, i, j, rest, hsome, hsize, hseries, hafter, rfl⟩ :=
      Nsga2.of_drawParent_eq_ok (Prod.ext hwinner rfl)
    obtain ⟨hmem, hunbeaten⟩ := Nsga2.crowdedWinner_unbeaten standings i j
    refine ⟨rest, congrArg Policy.nsga2 hafter, .nsga2 hsome hsize hseries ?_ hmem hunbeaten⟩
    have hlt := lt_of_mem_series_below hpos 2 g
    rwa [hseries] at hlt
  | nsga3 p =>
    obtain ⟨hwinner, rfl⟩ := Prod.mk.inj hdrawn
    obtain ⟨hpos, r, i, j, toss, rest, hsome, hsize, hseries, hafter, hniched⟩ :=
      Nsga3.of_drawParent_eq_ok (Prod.ext hwinner rfl)
    have hlt := lt_of_mem_series_below hpos 2 g
    rw [hseries] at hlt
    refine ⟨rest, congrArg Policy.nsga3 hafter, ?_⟩
    by_cases hdirection : (Association.lookUp r.members i).direction
        = (Association.lookUp r.members j).direction
    · obtain ⟨winner, hmem, heq, hunbeaten⟩ := Nsga3.nichedWinner_unbeaten hdirection toss
      obtain ⟨rfl, rfl⟩ := Prod.mk.inj (heq.symm.trans hniched)
      exact .nsga3 hsome hsize hdirection hseries hlt hmem hunbeaten
    · rw [Nsga3.nichedWinner_of_ne hdirection] at hniched
      obtain ⟨rfl, rfl⟩ := Prod.mk.inj hniched
      exact .toss hsome hsize hdirection hseries hlt rfl rfl

/-- From the same state of the generator, in which members 0 and 2 are drawn, the fitter one
wins by one objective and the one at an end of the line by crowding distance; from another one,
in which members 1 and 2 are drawn, a coin decides for the one of the last direction. -/
theorem isTournament_of_threes :
    (∃ rest, IsTournament SingleObjective.threeMembers ⟨3⟩ rest 2
        (.singleObjective SingleObjective.threePolicy))
      ∧ (∃ rest, IsTournament Nsga2.ridge ⟨3⟩ rest 0 (.nsga2 Nsga2.ridgePolicy))
      ∧ ∃ rest, IsTournament Nsga3.trio ⟨5⟩ rest 2 (.nsga3 Nsga3.trioPolicy) := by
  have hsingle : (Policy.singleObjective SingleObjective.threePolicy).Reachable (some 1) :=
    .start (.ofObjectiveCount (rfl : ofObjectiveCount 1 SingleObjective.threeSettings ⟨0⟩
      = .ok (singleObjective ⟨SingleObjective.threeSettings, ⟨5⟩, false⟩, ⟨0⟩)))
      SingleObjective.threeMembers (by decide +kernel)
  have hpair : (Policy.nsga2 Nsga2.ridgePolicy).Reachable (some 2) :=
    .start (.ofNsga2 (rfl : ofNsga2 { populationSize := 3, seed := some 7 } ⟨0⟩
      = .ok (nsga2 ⟨{ populationSize := 3, seed := some 7 }, ⟨7⟩, none, 0⟩, ⟨0⟩)))
      Nsga2.ridge (by decide +kernel)
  have hfitter : ((singleObjective SingleObjective.threePolicy).reseed ⟨3⟩).perform true
      (.draw SingleObjective.threeMembers) = (.ok (.parent 2), _) :=
    Prod.ext (by decide +kernel) rfl
  have hisolated : ((nsga2 Nsga2.ridgePolicy).reseed ⟨3⟩).perform true (.draw Nsga2.ridge)
      = (.ok (.parent 0), _) := Prod.ext (by decide +kernel) rfl
  have htails : ((nsga3 Nsga3.trioPolicy).reseed ⟨5⟩).perform true (.draw Nsga3.trio)
      = (.ok (.parent 2), _) := Prod.ext (by decide +kernel) rfl
  obtain ⟨rest₁, -, hfitter⟩ := isTournament_of_perform_draw hsingle hfitter
  obtain ⟨rest₂, -, hisolated⟩ := isTournament_of_perform_draw hpair hisolated
  obtain ⟨rest₃, -, htails⟩ := isTournament_of_perform_draw Nsga3.reachable_trioPolicy htails
  exact ⟨⟨rest₁, hfitter⟩, ⟨rest₂, hisolated⟩, ⟨rest₃, htails⟩⟩

end Policy

end ParetoSelection
