/-
Histograms and sorted views agree about ranks.

A histogram counts buffer and blocks as they stand; a view sorts all items and keeps
running weights.  For the weight below an item it makes no difference which is asked:

* `Snapshot.sum_take_counts` — the counts up to a split point add up to the weight of
  what is below it;
* `SortedView.weightBelow` — what a view has in front of the first item that is not below,
  and `SortedView.weightBelow_ofSorted`, that this is the same weight;
* `runningTotals_eq`, `Sketch.cdf_eq` — fractions up to each bucket are the running totals of
  a histogram, each divided by the number of items;
* `Sketch.Reachable.ranks_agree` — all of this for the answers of a reachable sketch.
-/
import Mathlib.Algebra.Order.BigOperators.Group.List
import QuantileSketch.Proofs.Buckets
import QuantileSketch.Proofs.OrderStatistics
import QuantileSketch.Proofs.Reachable

namespace QuantileSketch

variable {α : Type} {cmp : α → α → Ordering}

/-! ### Running totals -/

theorem runningTotals_eq (counts : List ℕ) :
    runningTotals counts = (List.range counts.length).map fun j => (counts.take (j + 1)).sum := by
  refine List.ext_getElem (by simp [runningTotals]) ?_
  intro i hi hi'
  simp only [runningTotals, List.getElem_tail, List.getElem_scanl, List.getElem_map,
    List.getElem_range, List.sum_eq_foldl]

theorem pairwise_runningTotals (counts : List ℕ) :
    (runningTotals counts).Pairwise (· ≤ ·) := by
  rw [runningTotals_eq, List.pairwise_map]
  refine List.pairwise_lt_range.imp ?_
  intro i j hij
  exact List.monotone_sum_take counts (Nat.succ_le_succ (Nat.le_of_lt hij))

/-! ### What is below an item -/

/-- The counts up to a split point add up to the weight of what is below it. -/
theorem Snapshot.sum_take_counts [Std.TransCmp cmp] (s : Snapshot α) {splits : List α}
    (h : splits.Pairwise fun x y => (cmp x y).isLT) {j : ℕ} {split : α}
    (hsplit : splits[j]? = some split) :
    (((List.range (splits.length + 1)).map fun i =>
        s.weightOf fun x => bucket cmp splits x = i).take (j + 1)).sum
      = s.weightOf fun x => (cmp x split).isLT := by
  obtain ⟨hj, rfl⟩ := List.getElem?_eq_some_iff.mp hsplit
  have hbelow : (fun x => decide (bucket cmp splits x < j + 1))
      = fun x => (cmp x splits[j]).isLT := by
    funext x
    rw [Bool.eq_iff_iff, decide_eq_true_iff, Nat.lt_succ_iff, bucket_le_iff h hj]
  rw [← List.map_take, List.take_range, Nat.min_eq_left (by omega), sum_weightOf, hbelow]

/-- The weight in front of the first item that is not below `x`, or if there is none, of
all items. -/
def SortedView.weightBelow (cmp : α → α → Ordering) (v : SortedView α) (x : α) : Option ℕ :=
  match v.items.findIdx? fun y => !(cmp y x).isLT with
  | some i => v.cumulative[i]?
  | none => some v.n

theorem SortedView.weightBelow_ofSorted [Std.TransCmp cmp] {n : ℕ} {xs : List (Weighted α)}
    (h : Sorted (byItem cmp) xs) (hn : (xs.map Weighted.weight).sum = n) (x : α) :
    (ofSorted n xs).weightBelow cmp x
      = some ((xs.filter fun y => (cmp y.item x).isLT).map Weighted.weight).sum := by
  have hinitial : IsInitial (byItem cmp) fun y => (cmp y.item x).isLT := fun _ _ hle =>
    isInitial_isLT x hle
  obtain ⟨ys, zs, rfl, hys, hzs⟩ := hinitial.exists_append h
  -- All of `ys` is below `x`, and nothing of `zs`.
  have hfilter : (ys ++ zs).filter (fun y => (cmp y.item x).isLT) = ys := by
    rw [List.filter_append, List.filter_eq_self.mpr hys, List.filter_eq_nil_iff.mpr hzs,
      List.append_nil]
  have hnone : (ys.findIdx? fun y => !(cmp y.item x).isLT) = none := by
    rw [List.findIdx?_eq_none_iff]
    intro y hy
    rw [hys y hy]
    rfl
  have hfind : (ofSorted n (ys ++ zs)).items.findIdx? (fun y => !(cmp y x).isLT)
      = (zs.findIdx? fun y => !(cmp y.item x).isLT).map (· + ys.length) := by
    rw [ofSorted, List.findIdx?_toArray, List.findIdx?_map]
    exact (List.findIdx?_append.trans (by rw [Function.comp_def, hnone]; rfl))
  rw [weightBelow, hfind, hfilter]
  cases zs with
  | nil =>
    rw [List.append_nil] at hn
    rw [hn]
    rfl
  | cons z zs =>
    have hfirst : ((z :: zs).findIdx? fun y => !(cmp y.item x).isLT) = some 0 := by
      have hz : (cmp z.item x).isLT = false := Bool.eq_false_iff.mpr (hzs z List.mem_cons_self)
      rw [List.findIdx?_cons, hz]
      rfl
    have hlt : ys.length < (ofSorted n (ys ++ z :: zs)).cumulative.size := by
      rw [size_cumulative_ofSorted, List.length_append]
      omega
    rw [hfirst, Option.map_some, Nat.zero_add]
    show (ofSorted n (ys ++ z :: zs)).cumulative[ys.length]? = _
    rw [Array.getElem?_eq_getElem hlt, getElem_cumulative_ofSorted, weightBefore, List.take_left]

namespace Sketch

theorem Sound.weightBelow_view [Std.TransCmp cmp] {s : Sketch α cmp} (h : s.Sound) :
    ∃ view, s.sortedView = .ok view
      ∧ ∀ x, view.weightBelow cmp x = some (s.weightOf fun y => (cmp y x).isLT) := by
  refine ⟨_, Snapshot.view_eq h.check_snapshot h.sorted_of_mem_occupied rfl, fun x => ?_⟩
  rw [SortedView.weightBelow_ofSorted (sorted_sortBy _ _) (Snapshot.sum_sorted h.check_snapshot),
    weightOf, Snapshot.weightOf_eq_sum]
  exact congrArg some (((sortBy_perm _ _).filter _).map _).sum_eq

theorem cdf_eq {s : Sketch α cmp} {splits : List α} {counts : List ℕ} (hn : 0 < s.n)
    (hsplits : checkSplitPoints cmp splits = .ok ()) (h : s.histogram splits = .ok counts) :
    s.cdf splits = .ok (some
      ((runningTotals counts).map fun total => Float.ofNat total / Float.ofNat s.n)) := by
  have hfull : s.isEmpty = false := decide_eq_false (Nat.ne_of_gt hn)
  rw [cdf, normalized, hsplits, hfull, h]
  rfl

theorem rank_eq {s : Sketch α cmp} {x : α} {below above : ℕ} (hn : 0 < s.n)
    (h : s.histogram [x] = .ok [below, above]) :
    s.rank x = .ok (some (Float.ofNat below / Float.ofNat s.n)) := by
  rw [rank, cdf_eq hn rfl h, runningTotals_eq]
  simp [List.range_succ]

/-- **Both ways to find a rank agree.**  The counts of a histogram up to a split point add up
to the first count of the histogram with this split point alone, and to what the view has
in front of the first item that is not below it.  So the fraction of the stream up to a
split point is its rank: the total divided by the number of items.  The totals do not
decrease and end with the number of items, so the last fraction is this number divided by
itself. -/
theorem Reachable.ranks_agree [Std.TransCmp cmp] {s : Sketch α cmp} (hs : s.Reachable)
    (hn : 0 < s.n) {splits : List α} (hsplits : checkSplitPoints cmp splits = .ok ()) :
    ∃ (counts totals : List ℕ) (view : SortedView α) (fractions : List Float),
      s.histogram splits = .ok counts ∧ counts.length = splits.length + 1
      ∧ totals = (List.range (splits.length + 1)).map (fun j => (counts.take (j + 1)).sum)
      ∧ s.sortedView = .ok view
      ∧ s.cdf splits = .ok (some fractions)
      ∧ fractions = totals.map (fun total => Float.ofNat total / Float.ofNat s.n)
      ∧ (∀ (j : ℕ) (split : α), splits[j]? = some split → ∃ total above, totals[j]? = some total
          ∧ s.histogram [split] = .ok [total, above]
          ∧ view.weightBelow cmp split = some total
          ∧ fractions[j]? = some (Float.ofNat total / Float.ofNat s.n)
          ∧ s.rank split = .ok (some (Float.ofNat total / Float.ofNat s.n)))
      ∧ totals.Pairwise (· ≤ ·) ∧ totals.getLast? = some s.n
      ∧ fractions.getLast? = some (Float.ofNat s.n / Float.ofNat s.n) := by
  have hsound := hs.sound
  have hcounts := hsound.histogram_eq hsplits
  have hsorted := checkSplitPoints_eq_ok_iff.mp hsplits
  obtain ⟨view, hview, hbelow⟩ := hsound.weightBelow_view
  set counts := (List.range (splits.length + 1)).map fun j =>
    s.weightOf fun x => bucket cmp splits x = j with hdef
  have hlength : counts.length = splits.length + 1 := by
    rw [hdef, List.length_map, List.length_range]
  have htotals := runningTotals_eq counts
  rw [hlength] at htotals
  have hlast : (runningTotals counts).getLast? = some s.n := by
    -- The last total counts all buckets.
    have hall : counts.take (splits.length + 1) = counts := List.take_of_length_le hlength.le
    rw [htotals, List.range_succ, List.map_append, List.map_singleton, List.getLast?_concat, hall]
    exact congrArg some (Snapshot.sum_weightOf_bucket hsound.check_snapshot splits)
  refine ⟨counts, runningTotals counts, view, _, hcounts, hlength, htotals, hview,
    cdf_eq hn hsplits hcounts, rfl, ?_, pairwise_runningTotals counts, hlast, ?_⟩
  · intro j split hsplit
    have hj : j < splits.length := (List.getElem?_eq_some_iff.mp hsplit).1
    have hsum : (counts.take (j + 1)).sum = s.weightOf fun x => (cmp x split).isLT :=
      s.snapshot.sum_take_counts hsorted hsplit
    have htotal : (runningTotals counts)[j]? = some (s.weightOf fun x => (cmp x split).isLT) := by
      rw [htotals, List.getElem?_map, List.getElem?_range (by omega), Option.map_some, hsum]
    refine ⟨_, _, htotal, hsound.histogram_singleton split, hbelow split, ?_,
      rank_eq hn (hsound.histogram_singleton split)⟩
    rw [List.getElem?_map, htotal, Option.map_some]
  · rw [List.getLast?_map, hlast, Option.map_some]

theorem Reachable.ranks_agree_afterFive :
    afterFive.Reachable ∧ 0 < afterFive.n ∧ checkSplitPoints compare [2, 3] = .ok ()
      ∧ (∃ view, afterFive.sortedView = .ok view ∧ view.weightBelow compare 3 = some 2)
      ∧ afterFive.rank 3 = .ok (some (Float.ofNat 2 / Float.ofNat 5))
      ∧ ∃ fractions, afterFive.cdf [2, 3] = .ok (some fractions)
        ∧ fractions[1]? = some (Float.ofNat 2 / Float.ofNat 5)
        ∧ fractions.getLast? = some (Float.ofNat 5 / Float.ofNat 5) := by
  have hn : 0 < afterFive.n := by decide
  have hsplits : checkSplitPoints compare [2, 3] = .ok () := rfl
  obtain ⟨counts, totals, view, fractions, -, -, -, hview, hcdf, -, hagree, -, -, hlast⟩ :=
    Reachable.ranks_agree reachable_afterFive hn hsplits
  obtain ⟨total, above, -, hcount, hbelow, hfraction, hrank⟩ := hagree 1 3 rfl
  obtain rfl : total = 2 := by
    rw [reachable_afterFive.sound.histogram_singleton 3, Except.ok.injEq] at hcount
    exact (List.cons.inj hcount).1.symm
  exact ⟨reachable_afterFive, hn, hsplits, ⟨view, hview, hbelow⟩, hrank, fractions, hcdf,
    hfraction, hlast⟩

end Sketch

end QuantileSketch
