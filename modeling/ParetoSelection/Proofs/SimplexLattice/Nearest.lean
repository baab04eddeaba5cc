import Mathlib.Algebra.Order.Group.Int
import Mathlib.Algebra.Order.Group.Unbundled.Abs
import Mathlib.Order.Monotone.Basic
import ParetoSelection.Proofs.SimplexLattice
import ParetoSelection.Proofs.SimplexLattice.Binomial

/-!
# The nearest division count

A lattice with one more step has more points (`strictMono_pointCount`). So the first
lattice of at least `target` points is nearer than all larger ones, the one before it is
nearer than all smaller ones, and the nearest lattice of all is one of these two. The search
stops at the first of them, and what it settles for is the nearest division count, the
smaller one on a tie (`IsFirstReaching.isNearest_settle`).

That is about numbers of points, and the search knows them as they are counted in words. A
count is right if none of its products outgrows a word, which is asked of the lattices that
the search comes to and of no others (`IsVisited`). That the search ends takes less: a count
that is not right is the largest word, and no target is above that (`climbs_firstReaching`).
-/

namespace ParetoSelection

namespace SimplexLattice

variable {dim target h top : Nat}

/-! ## Numbers of points -/

/-- **The number of points** of a lattice, which no word bounds. -/
def pointCount (dim h : Nat) : Nat :=
  (h + dim - 1).choose (dim - 1)

/-- **One more step makes more points**, on two axes or more. -/
theorem strictMono_pointCount (hdim : 2 ≤ dim) : StrictMono (pointCount dim) := by
  obtain ⟨d, rfl⟩ := Nat.exists_eq_add_of_le' hdim
  refine strictMono_nat_of_lt_succ fun h => ?_
  have hpascal : pointCount (d + 2) (h + 1)
      = (h + d + 1).choose d + pointCount (d + 2) h := by
    show (h + 1 + (d + 2) - 1).choose (d + 1) = _ + (h + (d + 2) - 1).choose (d + 1)
    rw [show h + 1 + (d + 2) - 1 = h + d + 1 + 1 by omega,
      show h + (d + 2) - 1 = h + d + 1 by omega]
    exact Nat.choose_succ_succ (h + d + 1) d
  have hpos : 0 < (h + d + 1).choose d := Nat.choose_pos (by omega)
  omega

/-- There are more points than steps. -/
theorem lt_pointCount (hdim : 2 ≤ dim) (h : Nat) : h < pointCount dim h := by
  induction h with
  | zero => exact Nat.choose_pos (by omega)
  | succ h ih => exact Nat.lt_of_le_of_lt ih (strictMono_pointCount hdim (Nat.lt_succ_self h))

/-- A count that fits is right, and any other one is the largest word. -/
theorem size_eq_pointCount_or (hdim : 2 ≤ dim) (h : Nat) :
    size dim h = if Fits (h + dim - 1) (dim - 1) then pointCount dim h else maxWord := by
  rw [size, if_neg (by omega), choose_eq_ite]
  rfl

/-! ## The nearest one -/

/-- **How far a lattice is from having `target` points**, above or below. -/
def deviation (dim target h : Nat) : Int :=
  |(pointCount dim h : Int) - target|

/-- **The smallest of the nearest division counts**, among all that are at least one. -/
structure IsNearest (dim target h : Nat) : Prop where
  /-- There is at least one step. -/
  pos : 1 ≤ h
  /-- No lattice is nearer. -/
  le : ∀ k, 1 ≤ k → deviation dim target h ≤ deviation dim target k
  /-- All smaller ones are farther. -/
  lt : ∀ k, 1 ≤ k → k < h → deviation dim target h < deviation dim target k

/-- **The first division count that reaches the target**, from one on. -/
structure IsFirstReaching (dim target top : Nat) : Prop where
  /-- There is at least one step. -/
  pos : 1 ≤ top
  /-- It reaches the target. -/
  le_top : target ≤ pointCount dim top
  /-- No smaller one does. -/
  lt_target : ∀ k, 1 ≤ k → k < top → pointCount dim k < target

/-- What the search settles for: the division count that it has reached or the one before,
whichever lattice is nearer. -/
def settle (dim target top : Nat) : Nat :=
  if top = 1 then 1
  else if target - pointCount dim (top - 1) ≤ pointCount dim top - target then top - 1 else top

namespace IsFirstReaching

/-- From the first one on lattices have too many points. -/
theorem deviation_of_le (hfirst : IsFirstReaching dim target top) (hdim : 2 ≤ dim) (hle : top ≤ h) :
    deviation dim target h = pointCount dim h - target := by
  have hcount : pointCount dim top ≤ pointCount dim h := (strictMono_pointCount hdim).monotone hle
  have htop := hfirst.le_top
  exact abs_of_nonneg (by omega)

/-- Before it they have too few. -/
theorem deviation_of_lt (hfirst : IsFirstReaching dim target top) (hpos : 1 ≤ h) (hlt : h < top) :
    deviation dim target h = target - pointCount dim h := by
  have hbelow := hfirst.lt_target h hpos hlt
  exact (abs_of_neg (by omega)).trans (neg_sub _ _)

/-- **What the search settles for is nearest.** -/
theorem isNearest_settle (hfirst : IsFirstReaching dim target top) (hdim : 2 ≤ dim) :
    IsNearest dim target (settle dim target top) := by
  have hmono := strictMono_pointCount hdim
  have htop := hfirst.deviation_of_le hdim (Nat.le_refl top)
  have hreached := hfirst.le_top
  -- no lattice from the first one on is nearer than the first one
  have habove (k : Nat) (hk : top ≤ k) : deviation dim target top ≤ deviation dim target k := by
    have hcount : pointCount dim top ≤ pointCount dim k := hmono.monotone hk
    rw [htop, hfirst.deviation_of_le hdim hk]
    omega
  by_cases hone : top = 1
  · rw [settle, if_pos hone]
    subst hone
    exact ⟨Nat.le_refl 1, habove, fun k hpos hlt => absurd hpos (Nat.not_le_of_lt hlt)⟩
  have hpos := hfirst.pos
  have hlast := hfirst.deviation_of_lt (h := top - 1) (by omega) (by omega)
  have hmissed := hfirst.lt_target (top - 1) (by omega) (by omega)
  -- and none before it is nearer than the last one before it
  have hbefore (k : Nat) (hk : 1 ≤ k) (hlt : k < top - 1) :
      deviation dim target (top - 1) < deviation dim target k := by
    have hcount : pointCount dim k < pointCount dim (top - 1) := hmono hlt
    rw [hlast, hfirst.deviation_of_lt hk (by omega)]
    omega
  have hbelow (k : Nat) (hk : 1 ≤ k) (hlt : k < top) :
      deviation dim target (top - 1) ≤ deviation dim target k := by
    obtain rfl | hne := eq_or_ne k (top - 1)
    · exact le_refl _
    · exact le_of_lt (hbefore k hk (by omega))
  rw [settle, if_neg hone]
  split_ifs with hnear
  · have hle : deviation dim target (top - 1) ≤ deviation dim target top := by
      rw [hlast, htop]
      omega
    refine ⟨by omega, fun k hk => ?_, hbefore⟩
    obtain hlt | hge := Nat.lt_or_ge k top
    · exact hbelow k hk hlt
    · exact hle.trans (habove k hge)
  · have hlt : deviation dim target top < deviation dim target (top - 1) := by
      rw [hlast, htop]
      omega
    refine ⟨hpos, fun k hk => ?_, fun k hk hk' => hlt.trans_le (hbelow k hk hk')⟩
    obtain hk' | hge := Nat.lt_or_ge k top
    · exact hlt.le.trans (hbelow k hk hk')
    · exact habove k hge

end IsFirstReaching

/-! ## The search -/

/-- **The search comes to a division count** if all smaller ones are counted as too small. -/
def IsVisited (dim target h : Nat) : Prop :=
  1 ≤ h ∧ ∀ k, 1 ≤ k → k < h → size dim k < target

/-- **The search ends**, whatever fits: a lattice with `target` steps has more than `target`
points, and one that cannot be counted is counted as the largest word. -/
theorem climbs_firstReaching (hdim : 2 ≤ dim) (htarget : target ≤ maxWord) (h : Nat) :
    Climbs dim target h (firstReaching dim target h) := by
  fun_induction firstReaching dim target h with
  | case1 h hless ih => exact .next hless.2 ih
  | case2 h hstop =>
    refine .stop (Nat.le_of_not_lt fun hsize => hstop ⟨?_, hsize⟩)
    have hlt := lt_pointCount hdim h
    rw [size_eq_pointCount_or hdim] at hsize
    split_ifs at hsize <;> omega

/-- Where the search ends a lattice is counted as large enough, and all that it has passed are
counted as too small. -/
theorem Climbs.bounds (hrun : Climbs dim target h top) :
    h ≤ top ∧ target ≤ size dim top ∧ ∀ k, h ≤ k → k < top → size dim k < target := by
  induction hrun with
  | stop hreached =>
    exact ⟨Nat.le_refl _, hreached, fun k hk hlt => absurd hk (Nat.not_le_of_lt hlt)⟩
  | @next h top hbelow _ ih =>
    obtain ⟨hle, hreached, hpassed⟩ := ih
    refine ⟨Nat.le_of_succ_le hle, hreached, fun k hk hlt => ?_⟩
    obtain rfl | hne := eq_or_ne k h
    · exact hbelow
    · exact hpassed k (by omega) hlt

/-- **The sum of steps and axes is a word**, and not only the number one below it, from which
the lattice is counted. The largest word is left out for the axes and for the target: with as
many axes the sum is too large from the first step on, and with as large a target the search
comes to it on two axes. -/
theorem IsVisited.add_le_maxWord (hdim : 2 ≤ dim) (haxes : dim < maxWord)
    (htarget : target < maxWord) (hfits : Fits (h + dim - 1) (dim - 1))
    (hvisited : IsVisited dim target h) : h + dim ≤ maxWord := by
  obtain ⟨hpos, hpassed⟩ := hvisited
  by_contra hlt
  -- the first product is the argument itself
  have hfirst := hfits 0 (by omega)
  rw [Nat.choose_zero_right, Nat.one_mul, Nat.sub_zero] at hfirst
  have hargument : h + dim - 1 = maxWord := by omega
  obtain rfl | hthree : 2 = dim ∨ 3 ≤ dim := by omega
  · have hbefore := hpassed (h - 1) (by omega) (by omega)
    have hcount := lt_pointCount hdim (h - 1)
    rw [size_eq_pointCount_or hdim] at hbefore
    split_ifs at hbefore <;> omega
  · have hsecond := hfits 1 (by omega)
    rw [hargument, Nat.choose_one_right] at hsecond
    exact absurd hsecond (by decide)

/-- **The division count that is chosen is the nearest one.** Asked for two objectives or
more and a target that is a word, where no product outgrows a word in counting the lattices
that the search comes to: the search ends. On its way the arguments of the counts are words
and the counts are right, so that the last one is at least the target and the one before it
below, which is why neither difference of the two to the target is negative. The choice
between the two lattices is the smallest of all division counts whose lattices are nearest to
the target. The sums from which one is subtracted to get the arguments are words as well, where
neither the axes nor the target are the largest one. -/
theorem isNearest_nearestDivisions (hdim : 2 ≤ dim) (htarget : target ≤ maxWord)
    (hfits : ∀ h, IsVisited dim target h → Fits (h + dim - 1) (dim - 1)) :
    ∃ top, Climbs dim target 1 top
      ∧ (∀ h, 1 ≤ h → h ≤ top →
          h + dim - 1 ≤ maxWord ∧ size dim h = (h + dim - 1).choose (dim - 1))
      ∧ target ≤ size dim top
      ∧ (top ≠ 1 → size dim (top - 1) ≤ target)
      ∧ IsNearest dim target (nearestDivisions dim target)
      ∧ (dim < maxWord → target < maxWord → ∀ h, 1 ≤ h → h ≤ top → h + dim ≤ maxWord) := by
  have hrun := climbs_firstReaching hdim htarget 1
  refine ⟨_, hrun, ?_⟩
  have hchosen : nearestDivisions dim target
      = if firstReaching dim target 1 = 1 then 1
        else if target - size dim (firstReaching dim target 1 - 1)
            ≤ size dim (firstReaching dim target 1) - target
          then firstReaching dim target 1 - 1 else firstReaching dim target 1 :=
    if_neg (by omega)
  rw [hchosen]
  generalize firstReaching dim target 1 = top at hrun ⊢
  obtain ⟨hpos, hreached, hpassed⟩ := hrun.bounds
  have hvisited (h : Nat) (hh : 1 ≤ h) (hle : h ≤ top) : IsVisited dim target h :=
    ⟨hh, fun k hk hlt => hpassed k hk (by omega)⟩
  have hcounted (h : Nat) (hh : 1 ≤ h) (hle : h ≤ top) : Fits (h + dim - 1) (dim - 1) :=
    hfits h (hvisited h hh hle)
  have hsize (h : Nat) (hh : 1 ≤ h) (hle : h ≤ top) : size dim h = pointCount dim h := by
    rw [size_eq_pointCount_or hdim, if_pos (hcounted h hh hle)]
  have hfirst : IsFirstReaching dim target top := by
    refine ⟨hpos, ?_, fun k hk hlt => ?_⟩
    · rw [← hsize top hpos (Nat.le_refl top)]
      exact hreached
    · rw [← hsize k hk (Nat.le_of_lt hlt)]
      exact hpassed k hk hlt
  refine ⟨fun h hh hle => ⟨?_, hsize h hh hle⟩, hreached, fun hone => ?_, ?_,
    fun haxes htarget h hh hle =>
      (hvisited h hh hle).add_le_maxWord hdim haxes htarget (hcounted h hh hle)⟩
  · -- the argument is the first of the products
    have hproduct := hcounted h hh hle 0 (by omega)
    rwa [Nat.choose_zero_right, Nat.one_mul, Nat.sub_zero] at hproduct
  · exact Nat.le_of_lt (hpassed (top - 1) (by omega) (by omega))
  · have hnearest := hfirst.isNearest_settle hdim
    unfold settle at hnearest
    by_cases hone : top = 1
    · rwa [if_pos hone] at hnearest ⊢
    · rw [if_neg hone] at hnearest ⊢
      rwa [hsize top hpos (Nat.le_refl top), hsize (top - 1) (by omega) (by omega)]

/-- With four objectives a target of seven is as far from the four points of one step as from
the ten points of two, and one step is chosen. -/
theorem four_isNearest :
    2 ≤ 4 ∧ 7 ≤ maxWord ∧ (∀ h, IsVisited 4 7 h → Fits (h + 4 - 1) (4 - 1))
      ∧ Climbs 4 7 1 2 ∧ nearestDivisions 4 7 = 1 ∧ IsNearest 4 7 1
      ∧ deviation 4 7 1 = 3 ∧ deviation 4 7 2 = 3 := by
  have hfits (h : Nat) (hh : IsVisited 4 7 h) : Fits (h + 4 - 1) (4 - 1) := by
    have hle : h ≤ 2 := by
      by_contra hlt
      exact absurd (hh.2 2 (by decide) (by omega)) (by decide)
    have hall : ∀ h ≤ 2, Fits (h + 4 - 1) (4 - 1) := by decide
    exact hall h hle
  have hchosen : nearestDivisions 4 7 = 1 := by decide +kernel
  have hrun : Climbs 4 7 1 2 := .next (by decide) (.stop (by decide))
  have htwo : 2 ≤ 4 := by decide
  have htarget : 7 ≤ maxWord := by decide
  obtain ⟨-, -, -, -, -, hnearest, -⟩ := isNearest_nearestDivisions htwo htarget hfits
  rw [hchosen] at hnearest
  exact ⟨htwo, htarget, hfits, hrun, hchosen, hnearest, by decide, by decide⟩

end SimplexLattice

end ParetoSelection
