/-
What queries add up, whatever the comparison.

A query sorts, merges and counts by comparing items, and a comparison that follows no law may
put any item anywhere.  It loses none and counts none twice all the same, so what is added up
over a whole snapshot is its count, be its blocks in order or not:

* `sortBlocks_perm` — the sort of blocks moves items about and does nothing else;
* `sum_countEach`, `sum_countSorted` — both ways to count an item count it once;
* `Snapshot.ofSnapshot?_of_check`, `Snapshot.histogramBy_of_check` — so the last test of a
  query is never failed, and a snapshot that passes its check has answers.

Design notes: sums are over lists, and a step that compares has a sum that does not depend on
how the comparison comes out; nothing is said here about which bucket an item falls into.
-/
import QuantileSketch.Proofs.OrderStatistics

namespace QuantileSketch

variable {α : Type} {cmp : α → α → Ordering}

/-! ### The sort of blocks -/

theorem flatten_mergePairs_perm (cmp : α → α → Ordering) (rs : List (List α)) :
    (mergePairs cmp rs).flatten.Perm rs.flatten := by
  fun_induction mergePairs cmp rs with
  | case1 xs ys rest ih =>
    rw [List.flatten_cons, List.flatten_cons, List.flatten_cons, ← List.append_assoc]
    exact (mergeBy_perm cmp xs ys).append ih
  | case2 rest => exact List.Perm.refl _

theorem mergeRuns_perm (cmp : α → α → Ordering) (rs : List (List α)) :
    (mergeRuns cmp rs).Perm rs.flatten := by
  fun_induction mergeRuns cmp rs with
  | case1 => exact List.Perm.refl _
  | case2 xs =>
    rw [List.flatten_singleton]
  | case3 xs ys rest ih =>
    have hpairs := flatten_mergePairs_perm cmp (xs :: ys :: rest)
    rw [mergePairs] at hpairs
    exact ih.trans hpairs

theorem sortBlocks_perm (cmp : α → α → Ordering) (size sorted : ℕ) (xs : List α) :
    (sortBlocks cmp size sorted xs).Perm xs := by
  refine (mergeRuns_perm cmp _).trans ?_
  rw [flatten_runs]
  calc (xs.take sorted ++ sortBy cmp (xs.drop sorted)).Perm (xs.take sorted ++ xs.drop sorted) :=
        (sortBy_perm cmp (xs.drop sorted)).append_left _
    _ = xs := List.take_append_drop sorted xs

/-! ### Counting -/

theorem length_countEach (cmp : α → α → Ordering) (weight : ℕ) (splits xs : List α) :
    (countEach cmp weight splits xs).length = splits.length + 1 := by
  rw [countEach_eq, List.length_map, List.length_range]

/-- Every item is counted in one bucket. -/
theorem sum_countEach (cmp : α → α → Ordering) (weight : ℕ) (splits xs : List α) :
    (countEach cmp weight splits xs).sum = weight * xs.length := by
  have hall : xs.countP (fun x => bucket cmp splits x < splits.length + 1) = xs.length :=
    List.countP_eq_length.mpr fun x _ => decide_eq_true (bucket_lt splits x)
  rw [countEach_eq, List.sum_map_mul_left, sum_countP_eq, hall]

theorem length_countSorted (cmp : α → α → Ordering) (weight : ℕ) (splits xs : List α) :
    (countSorted cmp weight splits xs).length = splits.length + 1 := by
  induction splits generalizing xs with
  | nil => rfl
  | cons split splits ih => rw [countSorted, List.length_cons, ih, List.length_cons]

/-- Walking items and split points together passes every item once. -/
theorem sum_countSorted (cmp : α → α → Ordering) (weight : ℕ) (splits xs : List α) :
    (countSorted cmp weight splits xs).sum = weight * xs.length := by
  induction splits generalizing xs with
  | nil => exact List.sum_singleton
  | cons split splits ih =>
    have hlength : xs.length = (xs.span fun x => (cmp x split).isLT).1.length
        + (xs.span fun x => (cmp x split).isLT).2.length := by
      rw [List.span_eq_takeWhile_dropWhile, ← List.length_append, List.takeWhile_append_dropWhile]
    rw [countSorted, List.sum_cons, ih, ← Nat.mul_add, ← hlength]

theorem length_addCounts {counts₁ counts₂ : List ℕ} (h : counts₂.length = counts₁.length) :
    (addCounts counts₁ counts₂).length = counts₁.length := by
  rw [addCounts, List.length_zipWith, h, Nat.min_self]

theorem sum_addCounts {counts₁ counts₂ : List ℕ} (h : counts₂.length = counts₁.length) :
    (addCounts counts₁ counts₂).sum = counts₁.sum + counts₂.sum := by
  induction counts₁ generalizing counts₂ with
  | nil =>
    rw [List.eq_nil_of_length_eq_zero h]
    rfl
  | cons c counts₁ ih =>
    obtain ⟨d, counts₂, rfl⟩ := List.exists_cons_of_length_eq_add_one h
    have hrest := ih (Nat.succ.inj h)
    rw [addCounts] at hrest ⊢
    rw [List.zipWith_cons_cons, List.sum_cons, hrest, List.sum_cons, List.sum_cons]
    omega

theorem CountingStrategy.length_count (strategy : CountingStrategy) (cmp : α → α → Ordering)
    (splits buffer : List α) :
    (strategy.count cmp splits buffer).length = splits.length + 1 := by
  cases strategy with
  | bilinear => exact length_countEach cmp 1 splits buffer
  | linear => exact length_countSorted cmp 1 splits _

theorem CountingStrategy.sum_count (strategy : CountingStrategy) (cmp : α → α → Ordering)
    (splits buffer : List α) :
    (strategy.count cmp splits buffer).sum = buffer.length := by
  cases strategy with
  | bilinear => rw [count, sum_countEach, Nat.one_mul]
  | linear => rw [count, sum_countSorted, length_sortBy, Nat.one_mul]

/-- Blocks counted on top of counts, each with the weight of its level. -/
def countBlocks (cmp : α → α → Ordering) (splits : List α) (blocks : List (ℕ × List α))
    (counts : List ℕ) : List ℕ :=
  blocks.foldl (fun counts b => addCounts counts (countSorted cmp (levelWeight b.1) splits b.2))
    counts

theorem Snapshot.counts_eq_countBlocks (strategy : CountingStrategy) (s : Snapshot α)
    (splits : List α) :
    s.counts cmp strategy splits
      = countBlocks cmp splits (Levels.occupied s.levels) (strategy.count cmp splits s.buffer) :=
  rfl

theorem length_countBlocks (cmp : α → α → Ordering) {splits : List α}
    (blocks : List (ℕ × List α)) {counts : List ℕ} (h : counts.length = splits.length + 1) :
    (countBlocks cmp splits blocks counts).length = splits.length + 1 := by
  induction blocks generalizing counts with
  | nil => exact h
  | cons b blocks ih =>
    have hlength := (length_countSorted cmp (levelWeight b.1) splits b.2).trans h.symm
    exact ih ((length_addCounts hlength).trans h)

/-- Blocks on top of counts add what they stand for. -/
theorem sum_countBlocks (cmp : α → α → Ordering) {splits : List α}
    (blocks : List (ℕ × List α)) {counts : List ℕ} (h : counts.length = splits.length + 1) :
    (countBlocks cmp splits blocks counts).sum = counts.sum + Sketch.blocksWeight blocks := by
  induction blocks generalizing counts with
  | nil => rfl
  | cons b blocks ih =>
    have hlength := (length_countSorted cmp (levelWeight b.1) splits b.2).trans h.symm
    have hrest := ih ((length_addCounts hlength).trans h)
    rw [sum_addCounts hlength, sum_countSorted, Nat.add_assoc] at hrest
    exact hrest

namespace Snapshot

/-! ### Snapshots that pass their check -/

/-- The items of the buffer, and what the blocks stand for, make up the count. -/
theorem length_buffer_add_blocksWeight {s : Snapshot α} (hcheck : s.check = .ok ()) :
    s.buffer.length + Sketch.blocksWeight (Levels.occupied s.levels) = s.n := by
  rw [← weightOf_true_of_check hcheck, weightOf, List.countP_true, Sketch.blocksWeight,
    Levels.sum_occupied List.length_nil]

theorem length_counts (cmp : α → α → Ordering) (strategy : CountingStrategy) (s : Snapshot α)
    (splits : List α) : (s.counts cmp strategy splits).length = splits.length + 1 := by
  rw [counts_eq_countBlocks]
  exact length_countBlocks cmp _ (strategy.length_count cmp splits s.buffer)

/-- The counts of a histogram make up the count of the snapshot. -/
theorem sum_counts (cmp : α → α → Ordering) (strategy : CountingStrategy) {s : Snapshot α}
    (hcheck : s.check = .ok ()) (splits : List α) : (s.counts cmp strategy splits).sum = s.n := by
  rw [counts_eq_countBlocks, sum_countBlocks cmp _ (strategy.length_count cmp splits s.buffer),
    strategy.sum_count, length_buffer_add_blocksWeight hcheck]

theorem sorted_perm (cmp : α → α → Ordering) (s : Snapshot α) :
    (s.sorted cmp).Perm s.weighted := sortBlocks_perm _ _ _ _

theorem sum_weight_sorted (cmp : α → α → Ordering) {s : Snapshot α} (hcheck : s.check = .ok ()) :
    ((s.sorted cmp).map Weighted.weight).sum = s.n :=
  ((sorted_perm cmp s).map _).sum_eq.trans (sum_weighted hcheck)

/-- A snapshot that passes its check has a view exactly if it holds as many items as it
says. -/
theorem ofSnapshot?_of_check (cmp : α → α → Ordering) {s : Snapshot α} (hcheck : s.check = .ok ()) :
    SortedView.ofSnapshot? cmp s
      = if s.weighted.length = s.retained then .ok (.ofSorted s.n (s.sorted cmp))
        else .error (.retainedMismatch s.weighted.length s.retained) := by
  rw [SortedView.ofSnapshot?, hcheck]
  split
  · rename_i hretained
    simp [hretained, foldl_weight, sum_weight_sorted cmp hcheck]
  · rename_i hretained
    simp [hretained]
    rfl

/-- A snapshot that passes its check has a histogram for split points that are accepted. -/
theorem histogramBy_of_check (strategy : CountingStrategy) {s : Snapshot α} {splits : List α}
    (hcheck : s.check = .ok ()) (hsplits : checkSplitPoints cmp splits = .ok ()) :
    s.histogramBy cmp strategy splits = .ok (s.counts cmp strategy splits) := by
  have hboth : s.checkHistogram cmp splits = .ok () := by
    rw [checkHistogram, hsplits]
    exact hcheck
  have hsum : (s.counts cmp strategy splits).foldl (· + ·) 0 = s.n := by
    rw [← List.sum_eq_foldl, sum_counts cmp strategy hcheck]
  rw [histogramBy, hboth]
  simp [hsum]

end Snapshot

end QuantileSketch
