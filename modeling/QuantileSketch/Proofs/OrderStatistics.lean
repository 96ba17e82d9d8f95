/-
Sorted views answer with the order statistics of the weighted stream.

The items of a snapshot with their weights stand for a stream in which every item is
repeated as often as its weight says (`expand`).  A view of the snapshot keeps the items
in stable order and the weight before each of them, and what it finds at a position is
what stands there in the stream.

* `weightBefore` — the running weights, of which a view holds as many as there are
  items, and one more;
* `locate_spec` — the search in them ends where they pass the position;
* `Snapshot.sorted_eq` — the items are in stable order, whatever their weights;
* `SortedView.Represents` — what a view keeps of its snapshot;
* `Snapshot.order_statistics` — a consistent snapshot has a view, which represents it and
  answers positions and ranks as the stream does.

Design notes: running weights are taken from the front of the list, so the step from one
to the next (`weightBefore_succ`) gives their order, their differences and the place of
an item in the stream, without an induction for each.
-/
import QuantileSketch.Proofs.Histogram
import QuantileSketch.Proofs.Ranks
import QuantileSketch.Proofs.StableSort
import QuantileSketch.SortedView

namespace QuantileSketch

variable {α : Type} {cmp : α → α → Ordering}

/-! ### Running weights -/

/-- The weight of the first `i` items. -/
def weightBefore (xs : List (Weighted α)) (i : ℕ) : ℕ := ((xs.take i).map Weighted.weight).sum

theorem weightBefore_succ {xs : List (Weighted α)} {i : ℕ} (h : i < xs.length) :
    weightBefore xs (i + 1) = weightBefore xs i + xs[i].weight := by
  rw [weightBefore, List.take_succ_eq_append_getElem h, List.map_append, List.sum_append]
  rfl

theorem weightBefore_length (xs : List (Weighted α)) :
    weightBefore xs xs.length = (xs.map Weighted.weight).sum := by
  rw [weightBefore, List.take_length]

theorem foldl_weight (xs : List (Weighted α)) (total : ℕ) :
    xs.foldl (fun total x => total + x.weight) total = total + (xs.map Weighted.weight).sum := by
  induction xs generalizing total with
  | nil => rfl
  | cons x xs ih => rw [List.foldl_cons, ih, List.map_cons, List.sum_cons, Nat.add_assoc]

theorem getElem_scanl_weight {xs : List (Weighted α)} {i : ℕ}
    (h : i < (xs.scanl (fun total x => total + x.weight) 0).length) :
    (xs.scanl (fun total x => total + x.weight) 0)[i] = weightBefore xs i := by
  rw [List.getElem_scanl, foldl_weight, Nat.zero_add, weightBefore]

/-- The differences of neighbours. -/
def differences (xs : List ℕ) : List ℕ := List.zipWith (fun x y => y - x) xs xs.tail

theorem differences_scanl_weight (xs : List (Weighted α)) :
    differences (xs.scanl (fun total x => total + x.weight) 0) = xs.map Weighted.weight := by
  refine List.ext_getElem (by simp [differences]) ?_
  intro i hi hi'
  rw [List.length_map] at hi'
  simp only [differences, List.getElem_zipWith, List.getElem_tail, getElem_scanl_weight,
    List.getElem_map]
  rw [weightBefore_succ hi', Nat.add_sub_cancel_left]

/-- Running weights increase if no item has weight zero. -/
theorem pairwise_scanl_weight {xs : List (Weighted α)} (h : ∀ x ∈ xs, 0 < x.weight) :
    (xs.scanl (fun total x => total + x.weight) 0).Pairwise (· < ·) := by
  -- It is enough to compare neighbours, which differ by the weight of an item.
  refine List.isChain_iff_pairwise.mp (List.isChain_iff_getElem.mpr ?_)
  intro i hi
  rw [List.length_scanl] at hi
  have hlt : i < xs.length := by omega
  rw [getElem_scanl_weight, getElem_scanl_weight, weightBefore_succ hlt]
  have := h xs[i] (List.getElem_mem hlt)
  omega

/-! ### Searching running weights -/

/-- The search keeps its lower end at or below the position and its upper end above. -/
theorem locateBetween_spec {cumulative : Array ℕ} {f : ℕ → ℕ}
    (hf : ∀ i (h : i < cumulative.size), cumulative[i] = f i) {pos lo hi : ℕ}
    (h : hi < cumulative.size) (hlt : lo < hi) (hlo : f lo ≤ pos) (hhi : pos < f hi) :
    locateBetween cumulative pos lo hi h < hi
      ∧ f (locateBetween cumulative pos lo hi h) ≤ pos
      ∧ pos < f (locateBetween cumulative pos lo hi h + 1) := by
  fun_induction locateBetween cumulative pos lo hi h with
  | case1 lo hi h hgap mid hmid ih =>
    rw [hf] at hmid
    exact ih (by omega) hmid hhi
  | case2 lo hi h hgap mid hmid ih =>
    rw [hf, Nat.not_le] at hmid
    obtain ⟨hle, hplace⟩ := ih (by omega) hlo hmid
    exact ⟨by omega, hplace⟩
  | case3 lo hi h hgap =>
    obtain rfl : hi = lo + 1 := by omega
    exact ⟨hlt, hlo, hhi⟩

/-- The search finds where running weights pass the position. -/
theorem locate_spec {cumulative : Array ℕ} {f : ℕ → ℕ}
    (hf : ∀ i (h : i < cumulative.size), cumulative[i] = f i) {m pos : ℕ}
    (hsize : cumulative.size = m + 1) (hfirst : f 0 ≤ pos) (hlast : pos < f m) :
    locate cumulative pos < m ∧ f (locate cumulative pos) ≤ pos
      ∧ pos < f (locate cumulative pos + 1) := by
  have hm : 0 < m := by
    rcases Nat.eq_zero_or_pos m with rfl | hm
    · omega
    · exact hm
  have hend : cumulative.size - 1 = m := by omega
  rw [locate, dif_pos (by omega)]
  simp only [hend]
  exact locateBetween_spec hf _ hm hfirst hlast

/-! ### The stream -/

/-- The stream in which every item is repeated as often as its weight says. -/
def expand (xs : List (Weighted α)) : List α := xs.flatMap fun x => List.replicate x.weight x.item

theorem length_expand (xs : List (Weighted α)) :
    (expand xs).length = (xs.map Weighted.weight).sum := by
  simp [expand, List.length_flatMap]

/-- An item stands in the stream at the positions between the running weights around it. -/
theorem getElem?_expand {xs : List (Weighted α)} {i pos : ℕ} (h : i < xs.length)
    (hlo : weightBefore xs i ≤ pos) (hhi : pos < weightBefore xs (i + 1)) :
    (expand xs)[pos]? = some xs[i].item := by
  -- Before the item stand the repeated items of lower places, after it the others.
  have hsplit : xs = xs.take i ++ xs[i] :: xs.drop (i + 1) := by
    rw [List.getElem_cons_drop, List.take_append_drop]
  have hexpand : expand xs = expand (xs.take i) ++
      (List.replicate xs[i].weight xs[i].item ++ expand (xs.drop (i + 1))) := by
    conv_lhs => rw [hsplit]
    simp only [expand, List.flatMap_append, List.flatMap_cons]
  have hbefore : (expand (xs.take i)).length = weightBefore xs i := length_expand _
  rw [weightBefore_succ h] at hhi
  rw [hexpand, List.getElem?_append_right (by omega), hbefore,
    List.getElem?_append_left (by rw [List.length_replicate]; omega),
    List.getElem?_replicate, if_pos (by omega)]

/-! ### The items of a snapshot in order -/

/-- Items in the order of `cmp`, whatever their weights. -/
def byItem (cmp : α → α → Ordering) (x y : Weighted α) : Ordering := cmp x.item y.item

instance [Std.TransCmp cmp] : Std.TransCmp (byItem cmp) where
  eq_swap {x y} := @Std.OrientedCmp.eq_swap _ cmp _ x.item y.item
  isLE_trans {x y z} := @Std.TransCmp.isLE_trans _ cmp _ x.item y.item z.item

namespace Snapshot

theorem weightedBlocks_eq (s : Snapshot α) :
    s.weightedBlocks = ((Levels.occupied s.levels).map fun b =>
      b.2.map fun item => ⟨item, levelWeight b.1⟩).flatten :=
  List.flatMap_def

/-- The items of a snapshot are in stable order, whatever their weights. -/
theorem sorted_eq [Std.TransCmp cmp] {s : Snapshot α} (hcheck : s.check = .ok ())
    (hblocks : ∀ b ∈ Levels.occupied s.levels, Sorted cmp b.2) :
    s.sorted cmp = sortBy (byItem cmp) s.weighted := by
  obtain ⟨hk, -, -, -, hlevels⟩ := check_eq_ok_iff.mp hcheck
  rw [sorted, weighted, weightedBlocks_eq]
  have hsorted : ∀ b ∈ (Levels.occupied s.levels).map fun b =>
        b.2.map fun item => (⟨item, levelWeight b.1⟩ : Weighted α),
      b.length = s.k ∧ Sorted (byItem cmp) b := by
    intro b hb
    obtain ⟨c, hc, rfl⟩ := List.mem_map.mp hb
    refine ⟨?_, ?_⟩
    · rw [List.length_map, hlevels.length_of_mem hc]
    · exact List.pairwise_map.mpr (hblocks c hc)
  exact sortBlocks_eq hk.pos hsorted s.weightedBuffer

theorem length_weighted {s : Snapshot α} (hcheck : s.check = .ok ()) :
    s.weighted.length = retainedCount s.k s.n := by
  obtain ⟨hk, hpattern, hbuffer, -, hlevels⟩ := check_eq_ok_iff.mp hcheck
  have hflatten : s.weightedBlocks.length = s.levels.flatten.length := by
    rw [← Levels.flatten_occupiedFrom 0 s.levels, weightedBlocks_eq, List.length_flatten,
      List.length_flatten, List.map_map, List.map_map]
    simp [Levels.occupied, Function.comp_def]
  rw [weighted, List.length_append, hflatten, hlevels.length_flatten hk.pos, weightedBuffer,
    List.length_map, hbuffer, hpattern, retainedCount, Nat.add_comm]

theorem sum_weighted {s : Snapshot α} (hcheck : s.check = .ok ()) :
    (s.weighted.map Weighted.weight).sum = s.n := by
  have hsum := s.weightOf_eq_sum fun _ => true
  rw [List.filter_true, weightOf_true_of_check hcheck] at hsum
  exact hsum.symm

theorem weight_pos {s : Snapshot α} : ∀ x ∈ s.weighted, 0 < x.weight := by
  intro x hx
  rcases List.mem_append.mp hx with hx | hx
  · obtain ⟨b, -, hx⟩ := List.mem_flatMap.mp hx
    obtain ⟨y, -, rfl⟩ := List.mem_map.mp hx
    show 0 < levelWeight b.1
    rw [levelWeight_eq]
    exact Nat.two_pow_pos _
  · obtain ⟨y, -, rfl⟩ := List.mem_map.mp hx
    exact Nat.one_pos

end Snapshot

/-! ### Views -/

/-- The items of a view, each with the difference of the running weights around it. -/
def SortedView.weighted (v : SortedView α) : List (Weighted α) :=
  List.zipWith Weighted.mk v.items.toList (differences v.cumulative.toList)

/-- A view keeps the items of a snapshot in stable order, each with its weight, and the
running weights increase from zero to the weight of the stream. -/
structure SortedView.Represents (cmp : α → α → Ordering) (v : SortedView α) (s : Snapshot α) :
    Prop where
  count : v.n = s.n
  weighted : v.weighted = sortBy (byItem cmp) s.weighted
  size : v.cumulative.size = v.items.size + 1
  increasing : v.cumulative.toList.Pairwise (· < ·)
  first : v.cumulative[0]? = some 0
  last : v.cumulative.back? = some s.n

namespace SortedView

theorem weighted_ofSorted (n : ℕ) (xs : List (Weighted α)) : (ofSorted n xs).weighted = xs := by
  rw [weighted]
  show List.zipWith Weighted.mk (xs.map Weighted.item)
    (differences (xs.scanl (fun total x => total + x.weight) 0)) = xs
  rw [differences_scanl_weight, List.zipWith_map, List.zipWith_self]
  exact List.map_id' xs

theorem size_cumulative_ofSorted (n : ℕ) (xs : List (Weighted α)) :
    (ofSorted n xs).cumulative.size = xs.length + 1 := by
  rw [size_cumulative, ofSorted, List.size_toArray, List.length_map]

theorem getElem_cumulative_ofSorted {n i : ℕ} {xs : List (Weighted α)}
    (h : i < (ofSorted n xs).cumulative.size) :
    (ofSorted n xs).cumulative[i] = weightBefore xs i :=
  (List.getElem_toArray _).trans (getElem_scanl_weight _)

/-- The last running weight is that of all items. -/
theorem back?_cumulative_ofSorted (n : ℕ) (xs : List (Weighted α)) :
    (ofSorted n xs).cumulative.back? = some (xs.map Weighted.weight).sum := by
  have hlast : xs.length < (ofSorted n xs).cumulative.size := by
    rw [size_cumulative_ofSorted]
    exact Nat.lt_succ_self _
  rw [Array.back?_eq_getElem?, size_cumulative_ofSorted, Nat.add_sub_cancel,
    Array.getElem?_eq_getElem hlast, getElem_cumulative_ofSorted, weightBefore_length]

/-- At each position a view has what stands there in the stream. -/
theorem itemAt_ofSorted {n pos : ℕ} {xs : List (Weighted α)}
    (h : pos < (xs.map Weighted.weight).sum) :
    ∃ x, (ofSorted n xs).itemAt pos = some x ∧ (expand xs)[pos]? = some x := by
  rw [← weightBefore_length] at h
  obtain ⟨hlt, hlo, hhi⟩ := locate_spec (fun i hi => getElem_cumulative_ofSorted hi)
    (size_cumulative_ofSorted n xs) (Nat.zero_le pos) h
  refine ⟨_, ?_, getElem?_expand hlt hlo hhi⟩
  show (xs.map Weighted.item).toArray[locate (ofSorted n xs).cumulative pos]? = _
  rw [List.getElem?_toArray, List.getElem?_map, List.getElem?_eq_getElem hlt, Option.map_some]

/-- A view of items with positive weights represents a snapshot that has these in order. -/
theorem represents_ofSorted {s : Snapshot α} {xs : List (Weighted α)}
    (hxs : xs = sortBy (byItem cmp) s.weighted) (hpos : ∀ x ∈ xs, 0 < x.weight)
    (hsum : (xs.map Weighted.weight).sum = s.n) : (ofSorted s.n xs).Represents cmp s where
  count := rfl
  weighted := (weighted_ofSorted s.n xs).trans hxs
  size := size_cumulative _
  increasing := pairwise_scanl_weight hpos
  first := by
    have hfirst : 0 < (ofSorted s.n xs).cumulative.size := by
      rw [size_cumulative_ofSorted]
      exact Nat.succ_pos _
    rw [Array.getElem?_eq_getElem hfirst, getElem_cumulative_ofSorted]
    rfl
  last := by rw [back?_cumulative_ofSorted, hsum]

end SortedView

/-- A rank stands for a place in the stream, whatever the rank. -/
theorem position_lt {n : ℕ} (h : 0 < n) (rank : Float) : position rank n < n :=
  Nat.lt_of_le_of_lt (Nat.min_le_right _ _) (Nat.sub_lt h Nat.one_pos)

namespace Snapshot

theorem sum_sorted {s : Snapshot α} (hcheck : s.check = .ok ()) :
    ((sortBy (byItem cmp) s.weighted).map Weighted.weight).sum = s.n :=
  ((sortBy_perm _ _).map _).sum_eq.trans (sum_weighted hcheck)

/-- The view of a snapshot that passes its check, with blocks in order and as many items
as it says. -/
theorem view_eq [Std.TransCmp cmp] {s : Snapshot α} (hcheck : s.check = .ok ())
    (hblocks : ∀ b ∈ Levels.occupied s.levels, Sorted cmp b.2)
    (hretained : s.retained = retainedCount s.k s.n) :
    SortedView.ofSnapshot? cmp s
      = .ok (SortedView.ofSorted s.n (sortBy (byItem cmp) s.weighted)) := by
  have hlength : s.weighted.length = s.retained := (length_weighted hcheck).trans hretained.symm
  rw [SortedView.ofSnapshot?, hcheck, sorted_eq hcheck hblocks]
  simp [hlength, foldl_weight, sum_sorted hcheck]

/-- **Order statistics**: a snapshot that passes its check, with blocks in order and as
many items as it says, has a view.  The view represents it, and finds at each position,
and at the position of each rank, what stands there in the stream.  The position of a rank
is its product with the number of items, rounded as floats are and without its fraction,
but no later than the last one. -/
theorem order_statistics [Std.TransCmp cmp] {s : Snapshot α} (hcheck : s.check = .ok ())
    (hblocks : ∀ b ∈ Levels.occupied s.levels, Sorted cmp b.2)
    (hretained : s.retained = retainedCount s.k s.n) :
    ∃ view, SortedView.ofSnapshot? cmp s = .ok view ∧ view.Represents cmp s
      ∧ (∀ pos < s.n, ∃ x, view.items[locate view.cumulative pos]? = some x
          ∧ (expand (sortBy (byItem cmp) s.weighted))[pos]? = some x)
      ∧ (0 < s.n → ∀ rank : Float, position rank s.n < s.n
          ∧ (0 ≤ rank ∧ rank ≤ 1 → s.n < 2 ^ 64 →
              position rank s.n
                = min ⌊Rounding.nearest (rankValue rank * Rounding.nearest s.n)⌋₊ (s.n - 1))
          ∧ ∃ x, view.quantile rank
              = (if 0 ≤ rank ∧ rank ≤ 1 then .ok (some x) else .error (.rankOutOfRange rank))
            ∧ (expand (sortBy (byItem cmp) s.weighted))[position rank s.n]? = some x) := by
  have hpos : ∀ x ∈ sortBy (byItem cmp) s.weighted, 0 < x.weight := by
    intro x hx
    exact weight_pos x ((sortBy_perm _ _).mem_iff.mp hx)
  have hitem : ∀ pos < s.n, ∃ x,
      (SortedView.ofSorted s.n (sortBy (byItem cmp) s.weighted)).itemAt pos = some x
        ∧ (expand (sortBy (byItem cmp) s.weighted))[pos]? = some x := by
    intro pos h
    refine SortedView.itemAt_ofSorted ?_
    rwa [sum_sorted hcheck]
  refine ⟨_, view_eq hcheck hblocks hretained,
    SortedView.represents_ofSorted rfl hpos (sum_sorted hcheck), hitem, ?_⟩
  intro hn rank
  obtain ⟨x, hx, hexpand⟩ := hitem (position rank s.n) (position_lt hn rank)
  refine ⟨position_lt hn rank, fun hrank => position_eq (checkRank_eq_ok_iff.mpr hrank), x, ?_,
    hexpand⟩
  have hnonempty : (SortedView.ofSorted s.n (sortBy (byItem cmp) s.weighted)).isEmpty = false :=
    decide_eq_false (Nat.ne_of_gt hn)
  rw [SortedView.quantile, checkRank, hnonempty]
  split
  · exact congrArg Except.ok hx
  · rfl

/-- A level of two items, the first tied with one of the buffer. -/
def ofSix : Snapshot ℕ where
  k := 2
  n := 6
  pattern := 1
  buffer := [1, 4]
  levels := [[1, 3]]

theorem order_statistics_ofSix :
    ofSix.check = .ok () ∧ (∀ b ∈ Levels.occupied ofSix.levels, Sorted compare b.2)
      ∧ ofSix.retained = retainedCount 2 6
      ∧ ∃ view, SortedView.ofSnapshot? compare ofSix = .ok view
        ∧ view.weighted = [⟨1, 2⟩, ⟨1, 1⟩, ⟨3, 2⟩, ⟨4, 1⟩]
        ∧ (∀ pos < 6, view.items[locate view.cumulative pos]? = [1, 1, 1, 3, 3, 4][pos]?)
        ∧ ∀ rank : Float, 0 ≤ rank ∧ rank ≤ 1 →
          position rank 6 = min ⌊Rounding.nearest (rankValue rank * Rounding.nearest 6)⌋₊ 5
            ∧ ∃ x, view.quantile rank = .ok (some x)
              ∧ [1, 1, 1, 3, 3, 4][position rank 6]? = some x := by
  have hcheck : ofSix.check = .ok () := rfl
  have hblocks : ∀ b ∈ Levels.occupied ofSix.levels, Sorted compare b.2 := by
    intro b hb
    rw [List.mem_singleton.mp hb, Sorted]
    decide
  have hsorted : sortBy (byItem compare) ofSix.weighted
      = [⟨1, 2⟩, ⟨1, 1⟩, ⟨3, 2⟩, ⟨4, 1⟩] := by
    refine (mergeBy_eq_sortBy ?_ ?_).symm.trans ?_
    · rw [Sorted]
      decide
    · rw [Sorted]
      decide
    · show mergeBy (byItem compare) [⟨1, 2⟩, ⟨3, 2⟩] [⟨1, 1⟩, ⟨4, 1⟩] = _
      simp only [mergeBy, List.merge]
      rfl
  obtain ⟨view, hview, hrepresents, hitems, hranks⟩ := order_statistics hcheck hblocks rfl
  rw [hsorted] at hitems hranks
  refine ⟨hcheck, hblocks, rfl, view, hview, hrepresents.weighted.trans hsorted, ?_, ?_⟩
  · intro pos hpos
    obtain ⟨x, hx, hexpand⟩ := hitems pos hpos
    exact hx.trans hexpand.symm
  · intro rank hrank
    obtain ⟨-, hplace, x, hx, hexpand⟩ := hranks (by decide) rank
    rw [if_pos hrank] at hx
    exact ⟨hplace hrank (by decide), x, hx, hexpand⟩

end Snapshot

end QuantileSketch
