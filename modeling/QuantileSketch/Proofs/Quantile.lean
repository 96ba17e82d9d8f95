/-
How far quantiles are off.

A sketch answers ranks from the stream that its items stand for (`Sketch.expanded`), which
differs from the stream that it has seen.  An item of a sorted stream has an initial property
exactly if it stands among the first ones that have it (`IsInitial.getElem?_iff`), so the
weights of what is below the answer, and of what is not above it, lie on both sides of its
place.  By the bounds on weights, so do the counts in the stream that was seen:

* `Sketch.quantileAt` — what the item at a rank is, and `Sketch.Sound.quantile_eq`, that this
  is the answer;
* `Sketch.Summarizes.quantile_error` — the answer for a rank is close to the item at its
  place in the stream, and while nothing has been compacted it is that item or one tied
  with it.
-/
import QuantileSketch.Proofs.OrderStatistics
import QuantileSketch.Proofs.RankError
import QuantileSketch.Proofs.Ranks

namespace QuantileSketch

variable {α : Type} {cmp : α → α → Ordering}

/-! ### Places in sorted lists -/

theorem isInitial_isLE [Std.TransCmp cmp] (x : α) : IsInitial cmp fun y => (cmp y x).isLE :=
  fun _ _ hyz hz => Std.TransCmp.isLE_trans hyz hz

/-- In a sorted list the items with an initial property are the first ones, as many as there
are. -/
theorem IsInitial.getElem?_iff {P : α → Bool} (hP : IsInitial cmp P) {xs : List α}
    (h : Sorted cmp xs) {i : ℕ} {x : α} (hx : xs[i]? = some x) :
    P x = true ↔ i < xs.countP P := by
  obtain ⟨ys, zs, rfl, hys, hzs⟩ := hP.exists_append h
  rw [List.countP_append, List.countP_eq_length.mpr hys, List.countP_eq_zero.mpr hzs,
    Nat.add_zero]
  by_cases hi : i < ys.length
  · rw [List.getElem?_append_left hi] at hx
    exact iff_of_true (hys x (List.mem_of_getElem? hx)) hi
  · rw [List.getElem?_append_right (Nat.le_of_not_lt hi)] at hx
    exact iff_of_false (hzs x (List.mem_of_getElem? hx)) hi

theorem Sorted.isLE_of_getElem? [Std.ReflCmp cmp] {xs : List α} (h : Sorted cmp xs) {i j : ℕ}
    {x y : α} (hij : i ≤ j) (hx : xs[i]? = some x) (hy : xs[j]? = some y) : (cmp x y).isLE := by
  obtain ⟨hi, rfl⟩ := List.getElem?_eq_some_iff.mp hx
  obtain ⟨hj, rfl⟩ := List.getElem?_eq_some_iff.mp hy
  rcases Nat.eq_or_lt_of_le hij with rfl | hlt
  · exact Std.ReflCmp.isLE_rfl
  · exact List.pairwise_iff_getElem.mp h i j hi hj hlt

/-! ### The stream that items stand for -/

theorem sorted_expand [Std.ReflCmp cmp] {xs : List (Weighted α)} (h : Sorted (byItem cmp) xs) :
    Sorted cmp (expand xs) := by
  induction xs with
  | nil => exact List.Pairwise.nil
  | cons x xs ih =>
    obtain ⟨hx, hxs⟩ := List.pairwise_cons.mp h
    rw [expand, List.flatMap_cons, Sorted, List.pairwise_append]
    refine ⟨?_, ih hxs, ?_⟩
    · exact List.pairwise_replicate.mpr (.inr Std.ReflCmp.isLE_rfl)
    · intro y hy z hz
      obtain ⟨w, hw, hz⟩ := List.mem_flatMap.mp hz
      rw [(List.mem_replicate.mp hy).2, (List.mem_replicate.mp hz).2]
      exact hx w hw

theorem countP_expand (P : α → Bool) (xs : List (Weighted α)) :
    (expand xs).countP P = ((xs.filter fun x => P x.item).map Weighted.weight).sum := by
  induction xs with
  | nil => rfl
  | cons x xs ih =>
    rw [expand] at ih
    rw [expand, List.flatMap_cons, List.countP_append, ih, List.countP_replicate]
    cases hx : P x.item with
    | false => simp [hx]
    | true => simp [hx]

namespace Sketch

/-- The stream that the items of a sketch stand for, in order. -/
def expanded (s : Sketch α cmp) : List α := expand (sortBy (byItem cmp) s.snapshot.weighted)

theorem sorted_expanded [Std.TransCmp cmp] (s : Sketch α cmp) : Sorted cmp s.expanded :=
  sorted_expand (sorted_sortBy _ _)

theorem countP_expanded (s : Sketch α cmp) (P : α → Bool) :
    s.expanded.countP P = s.weightOf P := by
  rw [expanded, countP_expand, weightOf, Snapshot.weightOf_eq_sum]
  exact (((sortBy_perm _ _).filter _).map _).sum_eq

/-- The item at a rank that is accepted. -/
def quantileAt (s : Sketch α cmp) (rank : Float) : Option α :=
  if rank == 0 then s.least
  else if rank == 1 then s.greatest
  else s.expanded[position rank s.n]?

theorem isEmpty_eq_false {s : Sketch α cmp} (hn : 0 < s.n) : s.isEmpty = false :=
  decide_eq_false (Nat.ne_of_gt hn)

/-- A view of the sketch finds at the place of a rank what stands there in the stream. -/
theorem Sound.exists_getElem?_expanded [Std.TransCmp cmp] {s : Sketch α cmp} (h : s.Sound)
    {pos : ℕ} (hpos : pos < s.n) :
    ∃ x, s.expanded[pos]? = some x
      ∧ (SortedView.ofSorted s.n (sortBy (byItem cmp) s.snapshot.weighted)).itemAt pos
          = some x := by
  have hsum : ((sortBy (byItem cmp) s.snapshot.weighted).map Weighted.weight).sum = s.n :=
    Snapshot.sum_sorted h.check_snapshot
  rw [← hsum] at hpos
  obtain ⟨x, hitem, hexpand⟩ := SortedView.itemAt_ofSorted hpos
  exact ⟨x, hexpand, hitem⟩

theorem Sound.view_quantile_eq [Std.TransCmp cmp] {s : Sketch α cmp} (h : s.Sound)
    (hn : 0 < s.n) {rank : Float} (hrank : checkRank rank = .ok ()) :
    (SortedView.ofSorted s.n (sortBy (byItem cmp) s.snapshot.weighted)).quantile rank
      = .ok s.expanded[position rank s.n]? := by
  obtain ⟨x, hexpand, hitem⟩ := h.exists_getElem?_expanded (position_lt hn rank)
  have hfull : (SortedView.ofSorted s.n
      (sortBy (byItem cmp) s.snapshot.weighted)).isEmpty = false :=
    decide_eq_false (Nat.ne_of_gt hn)
  rw [SortedView.quantile, hrank, hfull, hexpand]
  exact congrArg Except.ok hitem

theorem Sound.sortedView_eq [Std.TransCmp cmp] {s : Sketch α cmp} (h : s.Sound) :
    s.sortedView
      = .ok (SortedView.ofSorted s.n (sortBy (byItem cmp) s.snapshot.weighted)) :=
  Snapshot.view_eq h.check_snapshot h.sorted_of_mem_occupied rfl

theorem Sound.quantileIn_eq [Std.TransCmp cmp] {s : Sketch α cmp} (h : s.Sound) (hn : 0 < s.n)
    {rank : Float} (hrank : checkRank rank = .ok ()) :
    s.quantileIn (SortedView.ofSorted s.n (sortBy (byItem cmp) s.snapshot.weighted)) rank
      = .ok (s.quantileAt rank) := by
  rw [quantileIn, h.view_quantile_eq hn hrank, quantileAt]
  cases rank == 0 with
  | true => rfl
  | false => cases rank == 1 <;> rfl

theorem Sound.quantile_eq [Std.TransCmp cmp] {s : Sketch α cmp} (h : s.Sound) (hn : 0 < s.n)
    {rank : Float} (hrank : checkRank rank = .ok ()) :
    s.quantile rank = .ok (s.quantileAt rank) := by
  rw [quantile, hrank, isEmpty_eq_false hn, h.sortedView_eq, quantileAt]
  cases rank == 0 with
  | true => rfl
  | false =>
    cases rank == 1 with
    | true => rfl
    | false => exact h.view_quantile_eq hn hrank

/-- Between the ends the item is the one at the place of the rank. -/
theorem Sound.exists_quantile [Std.TransCmp cmp] {s : Sketch α cmp} (h : s.Sound)
    (hn : 0 < s.n) {rank : Float} (h0 : 0 < rank) (h1 : rank < 1) :
    ∃ q, s.quantile rank = .ok (some q) ∧ s.expanded[position rank s.n]? = some q := by
  obtain ⟨hrank, hzero, hone⟩ := checkRank_of_lt h0 h1
  obtain ⟨q, hq, -⟩ := h.exists_getElem?_expanded (position_lt hn rank)
  refine ⟨q, ?_, hq⟩
  rw [h.quantile_eq hn hrank, quantileAt, hzero, hone, ← hq]
  rfl

/-! ### The error of a quantile -/

theorem Summarizes.n_eq [Std.TransCmp cmp] {s : Sketch α cmp} {xs : List α}
    (h : Summarizes s xs) : s.n = xs.length :=
  (h.tracks (P := fun _ => true) fun _ _ _ _ => rfl).count

theorem Summarizes.n_pos [Std.TransCmp cmp] {s : Sketch α cmp} {xs : List α}
    (h : Summarizes s xs) (hxs : xs ≠ []) : 0 < s.n := by
  rw [h.n_eq]
  exact List.length_pos_of_ne_nil hxs

/-- What stands at a place of the stream of a sketch has no more than so many items of the
stream below it, and at least so many that are not above it, up to the error that the
occupied levels account for. -/
theorem Summarizes.countP_expanded_error [Std.TransCmp cmp] {s : Sketch α cmp} {xs : List α}
    (h : Summarizes s xs) {pos : ℕ} {q : α} (hq : s.expanded[pos]? = some q) :
    (xs.countP fun y => (cmp y q).isLT) ≤ pos + errorBound (occupancy s.k s.n)
      ∧ pos < (xs.countP fun y => (cmp y q).isLE) + errorBound (occupancy s.k s.n) := by
  have hsorted := s.sorted_expanded
  have hpattern := h.reachable.sound.standsFor.pattern_eq
  have hbelow := (h.tracks (isInitial_isLT q)).weight
  have hupto := (h.tracks (isInitial_isLE q)).weight
  rw [hpattern, abs_le] at hbelow hupto
  -- The item is not below itself, but it is not above itself either.
  have hself : cmp q q = .eq := Std.ReflCmp.compare_self
  have hlower := (isInitial_isLT q).getElem?_iff hsorted hq
  have hupper := (isInitial_isLE q).getElem?_iff hsorted hq
  rw [countP_expanded, hself] at hlower hupper
  have hlast : s.weightOf (fun y => (cmp y q).isLT) ≤ pos :=
    Nat.le_of_not_lt fun hlt => absurd (hlower.mpr hlt) (by decide)
  have hfirst : pos < s.weightOf fun y => (cmp y q).isLE := hupper.mp rfl
  omega

/-- The item at a place of a sorted list is tied with what has no more items below it, and
more that are not above it. -/
theorem exists_tied_sortBy [Std.TransCmp cmp] {xs : List α} {pos : ℕ} {q : α}
    (hlower : (xs.countP fun y => (cmp y q).isLT) ≤ pos)
    (hupper : pos < xs.countP fun y => (cmp y q).isLE) :
    ∃ y, (sortBy cmp xs)[pos]? = some y ∧ cmp y q = .eq := by
  have hsorted := sorted_sortBy cmp xs
  rw [← (sortBy_perm cmp xs).countP_eq] at hlower hupper
  have hpos : pos < (sortBy cmp xs).length := Nat.lt_of_lt_of_le hupper List.countP_le_length
  have hget := List.getElem?_eq_getElem hpos
  refine ⟨_, hget, ?_⟩
  have hle := ((isInitial_isLE q).getElem?_iff hsorted hget).mpr hupper
  have hlt := mt ((isInitial_isLT q).getElem?_iff hsorted hget).mp (Nat.not_lt.mpr hlower)
  revert hle hlt
  cases cmp (sortBy cmp xs)[pos] q <;> decide

/-- **Quantiles are close to the items at their places.**  The answer for a rank between zero
and one has no more items of the stream below it than its place, and more that are not above
it, up to the error that the occupied levels account for.  While nothing has been compacted
it is the item at that place of the sorted stream, or tied with it.  The place is the product
of the rank with the number of items, rounded as floats are and without its fraction, but no
later than the last one. -/
theorem Summarizes.quantile_error [Std.TransCmp cmp] {s : Sketch α cmp} {xs : List α}
    (h : Summarizes s xs) (hxs : xs ≠ []) {rank : Float} (h0 : 0 < rank) (h1 : rank < 1) :
    ∃ q, s.quantile rank = .ok (some q)
      ∧ (xs.countP fun y => (cmp y q).isLT)
          ≤ position rank xs.length + errorBound (occupancy s.k xs.length)
      ∧ position rank xs.length
          < (xs.countP fun y => (cmp y q).isLE) + errorBound (occupancy s.k xs.length)
      ∧ (xs.length < 2 * s.k →
          ∃ y, (sortBy cmp xs)[position rank xs.length]? = some y ∧ cmp y q = .eq)
      ∧ (xs.length < 2 ^ 64 → position rank xs.length
          = min ⌊Rounding.nearest (rankValue rank * Rounding.nearest xs.length)⌋₊
              (xs.length - 1)) := by
  obtain ⟨q, hquantile, hq⟩ := h.reachable.sound.exists_quantile (h.n_pos hxs) h0 h1
  obtain ⟨hlower, hupper⟩ := h.countP_expanded_error hq
  rw [← h.n_eq]
  refine ⟨q, hquantile, hlower, hupper, fun hfew => ?_, position_eq (checkRank_of_lt h0 h1).1⟩
  rw [occupancy, Nat.div_eq_of_lt hfew, errorBound_zero, Nat.add_zero] at hlower hupper
  exact exists_tied_sortBy hlower hupper

theorem Summarizes.quantile_error_afterFive :
    Summarizes afterFive [1, 2, 3, 4, 5] ∧ (0 : Float) < 0.5 ∧ (0.5 : Float) < 1
      ∧ ∃ q, afterFive.quantile 0.5 = .ok (some q)
        ∧ ([1, 2, 3, 4, 5].countP fun y => (compare y q).isLT) ≤ 3
        ∧ 1 < ([1, 2, 3, 4, 5].countP fun y => (compare y q).isLE)
        ∧ 2 = min ⌊Rounding.nearest (rankValue 0.5 * Rounding.nearest 5)⌋₊ 4 := by
  have h0 : (0 : Float) < 0.5 := by decide
  have h1 : (0.5 : Float) < 1 := by decide
  have hbound : errorBound (occupancy afterFive.k 5) = 1 := by decide
  have hplace : position 0.5 5 = 2 := by decide
  obtain ⟨q, hquantile, hlower, hupper, -, hproduct⟩ :=
    Summarizes.quantile_error summarizes_afterFive (List.cons_ne_nil _ _) h0 h1
  simp only [List.length_cons, List.length_nil, Nat.reduceAdd, hplace, hbound] at hlower hupper
  exact ⟨summarizes_afterFive, h0, h1, q, hquantile, hlower, Nat.lt_of_succ_lt_succ hupper,
    hplace.symm.trans (hproduct (by decide))⟩

end Sketch

end QuantileSketch
