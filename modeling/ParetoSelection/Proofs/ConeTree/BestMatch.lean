import Mathlib.Data.Prod.Lex
import Mathlib.Order.Interval.Set.LinearOrder
import ParetoSelection.Proofs.Binary64.Order
import ParetoSelection.Proofs.ConeTree.Build
import ParetoSelection.Proofs.ConeTree.Search

/-!
# The search finds what the scan finds

A search skips whole nodes, goes into the higher bound first, and meets the points in
an order of its own. What it returns does not depend on any of this. Places are
*ranked*: by the product of their point with the query, and of equal products the
lower place is the higher one. This is a linear order, so among any places there is
one best, and `Hit.IsBestOf` says of a hit that it is that place with its product.

One invariant carries the search. Whatever has been looked at or skipped so far, the
hit is the best of it. Looking at a point keeps the invariant because a hit is
replaced exactly if the point ranks higher (`IsBestOf.improve`). Skipping a node does
because the points of a node are not above its bound, so that all of them are strictly
below a product which exceeds the bound: none of them is even tied
(`IsBestOf.skip`). The scan keeps the same invariant, and there is only one best of
all places.
-/

namespace ParetoSelection

variable {α κ : Type} [Scalar α] [LinearOrder κ]

/-- **The rank of a place**: the key of the product of its point with the query, and
of equal keys the lower place ranks higher. -/
def placeRank (key : α → κ) (query : List α) (point : Nat → List α) (i : Nat) : κ ×ₗ Natᵒᵈ :=
  toLex (key (dot query (point i)), OrderDual.toDual i)

/-- **The best of some places**, as a hit. -/
structure Hit.IsBestOf (key : α → κ) (known : α → Prop) (query : List α) (point : Nat → List α)
    (places : Set Nat) (hit : Hit α) : Prop where
  /-- The products of the points at the places can be compared. -/
  known_dot : ∀ i ∈ places, known (dot query (point i))
  /-- It is one of the places. -/
  mem : hit.index ∈ places
  /-- Its product is that of the point there. -/
  product_eq : hit.product = dot query (point hit.index)
  /-- No place ranks higher. -/
  rank_le : ∀ i ∈ places, placeRank key query point i ≤ placeRank key query point hit.index

namespace Hit.IsBestOf

variable {key : α → κ} {known : α → Prop} {query : List α} {point : Nat → List α}
  {places : Set Nat} {hit hit' : Hit α}

/-- A place alone is the best of itself. -/
theorem singleton {i : Nat} (hi : known (dot query (point i))) :
    IsBestOf key known query point {i} ⟨i, dot query (point i)⟩ where
  known_dot j hj := by rwa [Set.mem_singleton_iff.1 hj]
  mem := rfl
  product_eq := rfl
  rank_le j hj := by rw [Set.mem_singleton_iff.1 hj]

/-- **There is one best of some places.** -/
theorem unique (h : hit.IsBestOf key known query point places)
    (h' : hit'.IsBestOf key known query point places) : hit = hit' := by
  have hrank := le_antisymm (h'.rank_le _ h.mem) (h.rank_le _ h'.mem)
  have hindex : hit.index = hit'.index :=
    OrderDual.toDual.injective (congrArg (fun r => (ofLex r).2) hrank)
  have hproduct : hit.product = hit'.product := by
    rw [h.product_eq, h'.product_eq, hindex]
  cases hit
  cases hit'
  exact congrArg₂ Hit.mk hindex hproduct

/-- **What the best is**, in terms of products: no product is larger, and those of the
places before it are smaller. -/
theorem key_le_and_lt (h : hit.IsBestOf key known query point places) {i : Nat}
    (hi : i ∈ places) :
    key (dot query (point i)) ≤ key hit.product
      ∧ (i < hit.index → key (dot query (point i)) < key hit.product) := by
  rw [h.product_eq]
  obtain hlt | ⟨heq, hle⟩ := Prod.Lex.toLex_le_toLex.1 (h.rank_le i hi)
  · exact ⟨le_of_lt hlt, fun _ => hlt⟩
  · refine ⟨le_of_eq heq, fun hbefore => ?_⟩
    exact absurd (OrderDual.toDual_le_toDual.1 hle) (Nat.not_le_of_lt hbefore)

/-- **Skipping places** whose products are all smaller keeps the best. -/
theorem skip (h : hit.IsBestOf key known query point places) {skipped : Set Nat}
    (hknown : ∀ i ∈ skipped, known (dot query (point i)))
    (hlt : ∀ i ∈ skipped, key (dot query (point i)) < key hit.product) :
    hit.IsBestOf key known query point (places ∪ skipped) where
  known_dot i hi := hi.elim (h.known_dot i) (hknown i)
  mem := Set.mem_union_left _ h.mem
  product_eq := h.product_eq
  rank_le i hi := by
    obtain hi | hi := hi
    · exact h.rank_le i hi
    · refine Prod.Lex.toLex_le_toLex.2 (.inl ?_)
      rw [← h.product_eq]
      exact hlt i hi

variable (hkeyed : IsKeyed key known)

include hkeyed

/-- A hit is replaced exactly if the place ranks higher. -/
theorem improve_eq (h : hit.IsBestOf key known query point places) {i : Nat}
    (hi : known (dot query (point i))) :
    hit.improve i (dot query (point i))
      = if placeRank key query point hit.index < placeRank key query point i then
          ⟨i, dot query (point i)⟩
        else hit := by
  have hhit := h.known_dot _ h.mem
  unfold Hit.improve placeRank
  refine if_congr ?_ rfl rfl
  rw [Bool.or_eq_true, Bool.and_eq_true, decide_eq_true_iff, decide_eq_true_iff, h.product_eq,
    hkeyed.lt_iff hhit hi, hkeyed.beq_iff hi hhit, Prod.Lex.toLex_lt_toLex]
  exact or_congr Iff.rfl (and_congr eq_comm Iff.rfl)

/-- **Looking at a point** keeps the best of what has been looked at. -/
theorem improve (h : hit.IsBestOf key known query point places) {i : Nat}
    (hi : known (dot query (point i))) :
    (hit.improve i (dot query (point i))).IsBestOf key known query point (insert i places) := by
  have hknown : ∀ j ∈ insert i places, known (dot query (point j)) := fun j hj =>
    (Set.mem_insert_iff.1 hj).elim (fun heq => heq ▸ hi) (h.known_dot j)
  rw [h.improve_eq hkeyed hi]
  split
  · rename_i hlt
    refine ⟨hknown, Set.mem_insert i places, rfl, fun j hj => ?_⟩
    obtain rfl | hj := Set.mem_insert_iff.1 hj
    · exact le_refl _
    · exact le_of_lt (lt_of_le_of_lt (h.rank_le j hj) hlt)
  · rename_i hle
    refine ⟨hknown, Set.mem_insert_of_mem i h.mem, h.product_eq, fun j hj => ?_⟩
    obtain rfl | hj := Set.mem_insert_iff.1 hj
    · exact not_lt.1 hle
    · exact h.rank_le j hj

/-- **Looking at the points of a run** keeps the best. -/
theorem scanFrom (h : hit.IsBestOf key known query point places) {first : Nat}
    {run : List (List α)} (hrun : ∀ k (hk : k < run.length), point (first + k) = run[k])
    (hknown : ∀ i ∈ Set.Ico first (first + run.length), known (dot query (point i))) :
    (hit.scanFrom query first run).IsBestOf key known query point
      (places ∪ Set.Ico first (first + run.length)) := by
  induction run generalizing hit places first with
  | nil =>
    rw [List.length_nil, Nat.add_zero, Set.Ico_self, Set.union_empty]
    exact h
  | cons p run ih =>
    have hlen : first + (p :: run).length = first + 1 + run.length := by
      rw [List.length_cons]
      omega
    rw [hlen] at hknown ⊢
    have hp : point first = p := hrun 0 (Nat.succ_pos _)
    have hstep := h.improve hkeyed (hknown first ⟨Nat.le_refl first, by omega⟩)
    rw [hp] at hstep
    have hrun' : ∀ k (hk : k < run.length), point (first + 1 + k) = run[k] := fun k hk => by
      rw [Nat.add_assoc, Nat.add_comm 1]
      exact hrun (k + 1) (Nat.succ_lt_succ hk)
    have hrest := ih hstep hrun' fun i hi => hknown i ⟨Nat.le_of_succ_le hi.1, hi.2⟩
    have hplaces : places ∪ Set.Ico first (first + 1 + run.length)
        = insert first places ∪ Set.Ico (first + 1) (first + 1 + run.length) := by
      ext i
      rw [Set.mem_union, Set.mem_union, Set.mem_insert_iff, or_assoc, or_left_comm, Set.mem_Ico,
        Set.mem_Ico]
      exact or_congr Iff.rfl (by omega)
    rw [hplaces]
    exact hrest

end Hit.IsBestOf

/-! ## The search -/

/-- The points of a node are those at its places. -/
def ConeNode.CoversFrom (point : Nat → List α) (node : ConeNode α) (first : Nat) : Prop :=
  ∀ k (hk : k < node.points.length), point (first + k) = node.points[k]

omit [Scalar α] in
/-- The parts of a node cover its places one after the other. -/
theorem ConeNode.CoversFrom.parts {point : Nat → List α} {ball : Ball α} {size first : Nat}
    {left right : ConeNode α} (h : (ConeNode.split ball size left right).CoversFrom point first) :
    left.CoversFrom point first ∧ right.CoversFrom point (first + left.points.length) := by
  constructor
  · intro k hk
    have hlt : k < (left.points ++ right.points).length := by
      rw [List.length_append]
      omega
    exact (h k hlt).trans (List.getElem_append_left hk)
  · intro k hk
    have hlt : left.points.length + k < (left.points ++ right.points).length := by
      rw [List.length_append]
      omega
    rw [Nat.add_assoc]
    refine (h _ hlt).trans ((List.getElem_append_right (Nat.le_add_right _ _)).trans ?_)
    exact getElem_congr_idx (Nat.add_sub_cancel_left _ _)

omit [Scalar α] in
/-- **Every node below covers its places.** -/
theorem ConeNode.CoversFrom.of_mem_arenaFrom {point : Nat → List α} {node : ConeNode α}
    {first place : Nat} (h : node.CoversFrom point first) {e : ArenaEntry α}
    (he : e ∈ node.arenaFrom first place) : e.node.CoversFrom point e.first := by
  induction node generalizing first place with
  | leaf ball points =>
    obtain rfl := List.mem_singleton.1 he
    exact h
  | split ball size left right ihl ihr =>
    obtain ⟨hleft, hright⟩ := h.parts
    obtain rfl | he := List.mem_cons.1 he
    · exact h
    · exact (List.mem_append.1 he).elim (ihl hleft) (ihr hright)

omit [Scalar α] in
/-- The point at one of its places is a point of the node. -/
theorem ConeNode.CoversFrom.point_mem {point : Nat → List α} {node : ConeNode α} {first i : Nat}
    (h : node.CoversFrom point first) (hi : first ≤ i) (hlt : i < first + node.points.length) :
    point i ∈ node.points := by
  have hk : i - first < node.points.length := by omega
  have hpoint := h (i - first) hk
  rw [Nat.add_sub_cancel' hi] at hpoint
  rw [hpoint]
  exact List.getElem_mem hk

/-- **Bounds that can be searched with**: no product with a point of a node is above
the bound of the node, for the node and all nodes below it. -/
def ConeNode.IsBounded (query : List α) (queryNorm : α) (point : Nat → List α)
    (node : ConeNode α) (first place : Nat) : Prop :=
  ∀ e ∈ node.arenaFrom first place, ∀ i, e.first ≤ i → i < e.last →
    ¬ e.node.ball.productBound query queryNorm < dot query (point i)

/-- The bound of a node itself. -/
theorem ConeNode.IsBounded.not_lt {point : Nat → List α} {query : List α} {queryNorm : α}
    {node : ConeNode α} {first place : Nat} (h : node.IsBounded query queryNorm point first place) :
    ∀ i ∈ Set.Ico first (first + node.points.length),
      ¬ node.ball.productBound query queryNorm < dot query (point i) := by
  intro i hi
  cases node with
  | leaf ball points => exact h _ List.mem_cons_self i hi.1 hi.2
  | split ball size left right => exact h _ List.mem_cons_self i hi.1 hi.2

/-- The bounds of the parts of a node. -/
theorem ConeNode.IsBounded.parts {point : Nat → List α} {query : List α} {queryNorm : α}
    {ball : Ball α} {size first place : Nat} {left right : ConeNode α}
    (h : (ConeNode.split ball size left right).IsBounded query queryNorm point first place) :
    left.IsBounded query queryNorm point first (place + 1)
      ∧ right.IsBounded query queryNorm point (first + left.points.length)
          (place + 1 + left.nodeCount) :=
  ⟨fun e he => h e (List.mem_cons_of_mem _ (List.mem_append_left _ he)),
    fun e he => h e (List.mem_cons_of_mem _ (List.mem_append_right _ he))⟩

namespace Hit.IsBestOf

variable {key : α → κ} {known : α → Prop} {query : List α} {queryNorm : α}
  {point : Nat → List α} {places : Set Nat} {hit : Hit α}

/-- **Skipping a node** whose bound is below the product of the hit keeps the best. -/
theorem skipNode (hkeyed : IsKeyed key known) (hbelow : ∀ a b : α, a < b → known b → known a)
    (h : hit.IsBestOf key known query point places) {bound : α} (hbound : bound < hit.product)
    {skipped : Set Nat} (hknown : ∀ i ∈ skipped, known (dot query (point i)))
    (hle : ∀ i ∈ skipped, ¬ bound < dot query (point i)) :
    hit.IsBestOf key known query point (places ∪ skipped) := by
  have hhit : known hit.product := by
    rw [h.product_eq]
    exact h.known_dot _ h.mem
  have hb := hbelow bound hit.product hbound hhit
  refine h.skip hknown fun i hi => ?_
  have hi' := hknown i hi
  rw [hkeyed.lt_iff hb hhit] at hbound
  have hnot := hle i hi
  rw [hkeyed.lt_iff hb hi', not_lt] at hnot
  exact lt_of_le_of_lt hnot hbound

/-- **Searching a node** keeps the best of what has been looked at or skipped, in
whatever order its parts are gone into. -/
theorem search (hkeyed : IsKeyed key known) (hbelow : ∀ a b : α, a < b → known b → known a)
    {node : ConeNode α} (hsized : node.IsSized) {first place : Nat}
    (hcovers : node.CoversFrom point first)
    (hbounded : node.IsBounded query queryNorm point first place)
    (hknown : ∀ i ∈ Set.Ico first (first + node.points.length), known (dot query (point i)))
    (h : hit.IsBestOf key known query point places) :
    (node.search query queryNorm first hit).IsBestOf key known query point
      (places ∪ Set.Ico first (first + node.points.length)) := by
  induction hsized generalizing first place hit places with
  | leaf ball points =>
    unfold ConeNode.search
    split
    · rename_i hbound
      exact h.skipNode hkeyed hbelow hbound hknown hbounded.not_lt
    · exact h.scanFrom hkeyed hcovers hknown
  | @split ball size left right hleft hright hsize ihl ihr =>
    obtain ⟨hcoversl, hcoversr⟩ := hcovers.parts
    obtain ⟨hboundedl, hboundedr⟩ := hbounded.parts
    have hlen : (ConeNode.split ball size left right).points.length
        = left.points.length + right.points.length := List.length_append
    have hknownl : ∀ i ∈ Set.Ico first (first + left.points.length),
        known (dot query (point i)) := fun i hi =>
      hknown i ⟨hi.1, lt_of_lt_of_le hi.2 (by omega)⟩
    have hknownr : ∀ i ∈ Set.Ico (first + left.points.length)
        (first + left.points.length + right.points.length), known (dot query (point i)) :=
      fun i hi => hknown i ⟨le_trans (Nat.le_add_right _ _) hi.1, lt_of_lt_of_le hi.2 (by omega)⟩
    have hplaces : Set.Ico first (first + (ConeNode.split ball size left right).points.length)
        = Set.Ico first (first + left.points.length) ∪ Set.Ico (first + left.points.length)
            (first + left.points.length + right.points.length) := by
      rw [hlen, ← Nat.add_assoc]
      exact (Set.Ico_union_Ico_eq_Ico (Nat.le_add_right _ _) (Nat.le_add_right _ _)).symm
    unfold ConeNode.search
    split
    · rename_i hbound
      exact h.skipNode hkeyed hbelow hbound hknown hbounded.not_lt
    · rw [hplaces, hleft.size_eq]
      split
      · rw [Set.union_comm (Set.Ico first _), ← Set.union_assoc]
        exact ihl hcoversl hboundedl hknownl (ihr hcoversr hboundedr hknownr h)
      · rw [← Set.union_assoc]
        exact ihr hcoversr hboundedr hknownr (ihl hcoversl hboundedl hknownl h)

end Hit.IsBestOf

namespace ConeTree

variable {key : α → κ} {known : α → Prop} {query : List α} {t : ConeTree α}

omit [Scalar α] in
/-- A tree covers the places from zero on. -/
theorem coversFrom_root (t : ConeTree α) : t.root.CoversFrom t.point 0 := by
  intro k hk
  rw [Nat.zero_add, point, t.points_eq, Array.getD_eq_getD_getElem?, List.getElem?_toArray,
    List.getElem?_eq_getElem hk, Option.getD_some]

/-- **The search finds the best of all places.** -/
theorem isBestOf_find (hkeyed : IsKeyed key known)
    (hbelow : ∀ a b : α, a < b → known b → known a) (ht : t.IsSearchable)
    (hknown : ∀ i < t.size, known (dot query (t.point i)))
    (hbounded : t.root.IsBounded query (norm query) t.point 0 0) :
    (t.find query).IsBestOf key known query t.point (Set.Iio t.size) := by
  have hfirst : (t.firstHit query).IsBestOf key known query t.point {0} :=
    .singleton (hknown 0 ht.size_pos)
  have hsearch := hfirst.search hkeyed hbelow ht.isSized t.coversFrom_root hbounded
    fun i hi => hknown i (by rw [t.size_eq, ← Nat.zero_add t.root.points.length]; exact hi.2)
  have hplaces : {0} ∪ Set.Ico 0 (0 + t.root.points.length) = Set.Iio t.size := by
    have hpos := ht.size_pos
    rw [← t.size_eq]
    ext i
    simp only [Set.mem_union, Set.mem_singleton_iff, Set.mem_Ico, Set.mem_Iio]
    omega
  rwa [hplaces] at hsearch

/-- Where later places are only taken for a larger product, a scan improves its hit. -/
theorem foldl_eq_scanFrom (query : List α) (run : List (List α)) {first : Nat} {hit : Hit α}
    (h : hit.index < first) :
    (run.zipIdx first).foldl
        (fun best (p, i) =>
          let product := dot query p
          if best.product < product then ⟨i, product⟩ else best) hit
      = hit.scanFrom query first run := by
  unfold Hit.scanFrom
  induction run generalizing first hit with
  | nil => rfl
  | cons p run ih =>
    have himprove : hit.improve first (dot query p)
        = if hit.product < dot query p then ⟨first, dot query p⟩ else hit := by
      unfold Hit.improve
      rw [decide_eq_false (Nat.lt_asymm h), Bool.and_false, Bool.or_false]
      exact if_congr decide_eq_true_iff rfl rfl
    rw [List.zipIdx_cons, List.foldl_cons, List.foldl_cons]
    dsimp only
    rw [himprove]
    refine ih ?_
    split
    · exact Nat.lt_succ_self first
    · exact Nat.lt_succ_of_lt h

/-- **So does the scan.** -/
theorem isBestOf_findLinear (hkeyed : IsKeyed key known) (ht : t.IsSearchable)
    (hknown : ∀ i < t.size, known (dot query (t.point i))) :
    (t.findLinear query).IsBestOf key known query t.point (Set.Iio t.size) := by
  have hcovers := t.coversFrom_root
  have hpoints : t.points.toList = t.root.points := by rw [t.points_eq]
  have hpos := ht.size_pos
  have hfirst : (t.firstHit query).IsBestOf key known query t.point {0} :=
    .singleton (hknown 0 hpos)
  unfold findLinear
  rw [t.size_eq] at hknown hpos ⊢
  rw [hpoints]
  unfold ConeNode.CoversFrom at hcovers
  obtain ⟨p, rest, hroot⟩ := List.exists_cons_of_length_pos hpos
  rw [hroot] at hknown hcovers ⊢
  rw [List.zipIdx_cons, List.drop_one, List.tail_cons, foldl_eq_scanFrom query rest Nat.one_pos]
  have hrest : ∀ k (hk : k < rest.length), t.point (1 + k) = rest[k] := fun k hk => by
    rw [Nat.add_comm 1 k, ← Nat.zero_add (k + 1)]
    exact hcovers (k + 1) (Nat.succ_lt_succ hk)
  have hscan := hfirst.scanFrom hkeyed hrest fun i hi => hknown i (by
    rw [List.length_cons, Nat.add_comm]
    exact hi.2)
  have hplaces : {0} ∪ Set.Ico 1 (1 + rest.length) = Set.Iio (p :: rest).length := by
    rw [List.length_cons]
    ext i
    simp only [Set.mem_union, Set.mem_singleton_iff, Set.mem_Ico, Set.mem_Iio]
    omega
  rwa [hplaces] at hscan

/-- **The search of a tree finds exactly what the scan finds.** Over any points of equal
dimension there is a tree, and it has these points. For a query whose product with no
point is NaN, and with no product of a point of a node above the bound of the node, both
return the same place and the same product: no point has a larger product, and those
before the place have smaller ones. -/
theorem find_eq_findLinear {points : List (List Binary64)} {dim : Nat} (hne : points ≠ [])
    (hdim : 0 < dim) (hlength : ∀ p ∈ points, p.length = dim) :
    ∃ t, ConeTree.ofPoints points = .ok t ∧ t.points.toList.Perm points ∧
      ∀ query : List Binary64, (∀ i < t.size, (dot query (t.point i)).isNaN = false) →
        (∀ e ∈ t.arena, ∀ i, e.first ≤ i → i < e.last →
          ¬ e.node.ball.productBound query (norm query) < dot query (t.point i)) →
        t.find query = t.findLinear query
          ∧ (t.find query).index < t.size
          ∧ (t.find query).product = dot query (t.point (t.find query).index)
          ∧ (∀ i < t.size, dot query (t.point i) ≤ (t.find query).product)
          ∧ ∀ i < (t.find query).index, dot query (t.point i) < (t.find query).product := by
  have hbuilt := ofPoints_eq_ok hne hdim hlength
  refine ⟨_, hbuilt, points_perm_of_ofPoints_eq_ok hbuilt, fun query hnumber hbounded => ?_⟩
  have ht := isSearchable_ofPoints hbuilt
  generalize ({ root := nodeOf points } : ConeTree Binary64) = t at hnumber hbounded ht ⊢
  have hknown : ∀ i < t.size, (dot query (t.point i)).IsNumber := fun i hi =>
    Binary64.isNaN_eq_false_iff.1 (hnumber i hi)
  have hfind := isBestOf_find Binary64.isKeyed_grade
    (fun _ _ hlt _ => (Binary64.isNumber_of_lt hlt).1) ht hknown hbounded
  have hscan := isBestOf_findLinear Binary64.isKeyed_grade ht hknown
  have hproduct : (t.find query).product.IsNumber := by
    rw [hfind.product_eq]
    exact hknown _ hfind.mem
  refine ⟨hfind.unique hscan, hfind.mem, hfind.product_eq, fun i hi => ?_, fun i hi => ?_⟩
  · exact (Binary64.le_iff (hknown i hi) hproduct).2 (hfind.key_le_and_lt hi).1
  · have hlt : i < t.size := lt_trans hi hfind.mem
    exact (Binary64.lt_iff (hknown i hlt) hproduct).2 ((hfind.key_le_and_lt hlt).2 hi)

/-- Nine points, for two leaves. Eight of them are on a line. -/
def ninePoints : List (List Binary64) :=
  let whole (n : Nat) : Binary64 := Scalar.ofNat n
  [[whole 0, whole 8], [whole 1, whole 7], [whole 2, whole 6], [whole 3, whole 5],
    [whole 4, whole 4], [whole 5, whole 2], [whole 6, whole 2], [whole 7, whole 1],
    [whole 8, whole 0]]

/-- All points of the line are tied. The search goes into the right leaf first, and
finds the tied point of the left one that comes first. -/
theorem ninePoints_find :
    ninePoints ≠ [] ∧ (∀ p ∈ ninePoints, p.length = 2)
      ∧ ∃ t, ConeTree.ofPoints ninePoints = .ok t ∧ t.nodeCount = 3
        ∧ t.findLinear [1, 1] = ⟨1, Scalar.ofNat 8⟩ ∧ t.find [1, 1] = ⟨1, Scalar.ofNat 8⟩ := by
  have hne : ninePoints ≠ [] := by decide
  have hlength : ∀ p ∈ ninePoints, p.length = 2 := by decide
  obtain ⟨t, hbuilt, -, hfind⟩ := find_eq_findLinear hne (by decide : 0 < 2) hlength
  refine ⟨hne, hlength, t, hbuilt, ?_⟩
  obtain rfl := root_of_ofPoints_eq_ok hbuilt
  have hscan : ({ root := nodeOf ninePoints } : ConeTree Binary64).findLinear [1, 1]
      = ⟨1, Scalar.ofNat 8⟩ := by decide +kernel
  have hfound := (hfind [1, 1] (by decide +kernel) (by decide +kernel)).1
  exact ⟨by decide +kernel, hscan, hfound.trans hscan⟩

end ConeTree

end ParetoSelection
