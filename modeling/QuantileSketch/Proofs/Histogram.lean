/-
Histograms count the weight in each bucket.

`Snapshot.weightOf s P` is the weight of the items of a snapshot that have the property
`P`: an item of the buffer has weight `1`, and one of level `i` has weight `2 ^ (i + 1)`.

* `countEach_eq`, `countSorted_eq` — both ways to count give the weight in each bucket;
* `Snapshot.counts_eq` — so the counts of a snapshot are the weights of its buckets,
  whichever way its buffer is counted;
* `Snapshot.weightOf_eq_sum`, `Snapshot.sum_weightOf` — these weights are sums over items,
  and add up over buckets;
* `Snapshot.weightOf_true_of_check` — all items have the weight `n` if the snapshot passes
  its check;
* `Sketch.Sound.histogram_singleton` — with one split point, the first count is the
  weight of what is below it.
-/
import QuantileSketch.Proofs.Snapshot
import QuantileSketch.Sketch.Query

namespace QuantileSketch

variable {α : Type} {cmp : α → α → Ordering}

/-! ### Counting a list -/

theorem bucket_lt (splits : List α) (x : α) : bucket cmp splits x < splits.length + 1 :=
  Nat.lt_succ_of_le List.findIdx_le_length

theorem bucket_cons (split : α) (splits : List α) (x : α) :
    bucket cmp (split :: splits) x
      = if (cmp x split).isLT then 0 else bucket cmp splits x + 1 := by
  rw [bucket, List.findIdx_cons]
  cases (cmp x split).isLT <;> rfl

theorem modify_map_range (f : ℕ → ℕ) (weight b m : ℕ) :
    ((List.range m).map f).modify b (· + weight)
      = (List.range m).map fun j => f j + if b = j then weight else 0 := by
  refine List.ext_getElem (by simp) fun j hj _ => ?_
  rw [List.getElem_modify]
  simp only [List.getElem_map, List.getElem_range]
  split <;> simp [*]

/-- Counting item by item gives the weight in each bucket. -/
theorem countEach_eq (weight : ℕ) (splits xs : List α) :
    countEach cmp weight splits xs
      = (List.range (splits.length + 1)).map fun j =>
          weight * xs.countP fun x => bucket cmp splits x = j := by
  -- Counting goes on from whatever counts there are so far.
  have hgen : ∀ f : ℕ → ℕ,
      xs.foldl (fun counts x => counts.modify (bucket cmp splits x) (· + weight))
          ((List.range (splits.length + 1)).map f)
        = (List.range (splits.length + 1)).map fun j =>
            f j + weight * xs.countP fun x => bucket cmp splits x = j := by
    induction xs with
    | nil => intro f; simp
    | cons x xs ih =>
      intro f
      rw [List.foldl_cons, modify_map_range, ih]
      refine List.map_congr_left fun j _ => ?_
      rw [List.countP_cons]
      by_cases h : bucket cmp splits x = j
      · simp only [h, if_true, decide_true]
        ring
      · simp [h]
  have hzero : List.replicate (splits.length + 1) 0
      = (List.range (splits.length + 1)).map fun _ => 0 := by
    rw [List.map_const', List.length_range]
  rw [countEach, hzero, hgen]
  simp

theorem span_append {p : α → Bool} {ys zs : List α} (hys : ∀ y ∈ ys, p y) (hzs : ∀ z ∈ zs, ¬ p z) :
    (ys ++ zs).span p = (ys, zs) := by
  rw [List.span_eq_takeWhile_dropWhile, List.takeWhile_append_of_pos hys,
    List.dropWhile_append_of_pos hys]
  cases zs with
  | nil => simp
  | cons z zs => simp [hzs z List.mem_cons_self]

/-- For items in order, walking items and split points together gives the same. -/
theorem countSorted_eq [Std.TransCmp cmp] (weight : ℕ) (splits : List α) {xs : List α}
    (h : Sorted cmp xs) :
    countSorted cmp weight splits xs
      = (List.range (splits.length + 1)).map fun j =>
          weight * xs.countP fun x => bucket cmp splits x = j := by
  induction splits generalizing xs with
  | nil => simp [countSorted, bucket]
  | cons split splits ih =>
    -- What is below the first split point stands first, and is counted at once.
    have hinitial : IsInitial cmp fun x => (cmp x split).isLT := isInitial_isLT split
    obtain ⟨ys, zs, rfl, hys, hzs⟩ := hinitial.exists_append h
    have hbelow : ∀ y ∈ ys, bucket cmp (split :: splits) y = 0 := by
      intro y hy
      rw [bucket_cons, if_pos (hys y hy)]
    have habove : ∀ z ∈ zs, bucket cmp (split :: splits) z = bucket cmp splits z + 1 := by
      intro z hz
      rw [bucket_cons, if_neg (hzs z hz)]
    have hzero : (ys ++ zs).countP (fun x => bucket cmp (split :: splits) x = 0) = ys.length := by
      rw [List.countP_append, List.countP_eq_length.mpr (by simpa using hbelow),
        List.countP_eq_zero.mpr fun z hz => by simp [habove z hz], Nat.add_zero]
    have hsucc : ∀ j, (ys ++ zs).countP (fun x => bucket cmp (split :: splits) x = j + 1)
        = zs.countP fun x => bucket cmp splits x = j := by
      intro j
      rw [List.countP_append, List.countP_eq_zero.mpr fun y hy => by simp [hbelow y hy],
        Nat.zero_add]
      exact List.countP_congr fun z hz => by simp [habove z hz]
    rw [countSorted, span_append hys hzs, List.length_cons, List.range_succ_eq_map, List.map_cons,
      List.map_map, hzero]
    refine congrArg (weight * ys.length :: ·) ?_
    rw [ih (List.pairwise_append.mp h).2.1]
    exact List.map_congr_left fun j _ => by rw [Function.comp_apply, hsucc]

/-- The counts of what has each of the values below `m` add up to that of what has any of
them. -/
theorem sum_countP_eq (f : α → ℕ) (m : ℕ) (xs : List α) :
    ((List.range m).map fun j => xs.countP fun x => f x = j).sum
      = xs.countP fun x => f x < m := by
  induction xs with
  | nil => simp
  | cons x xs ih =>
    -- An item has one value only.
    have hone : ((List.range m).map fun j => if f x = j then 1 else 0).sum
        = if f x < m then 1 else 0 := by
      rw [← List.sum_toFinset _ List.nodup_range]
      simp
    simp only [List.countP_cons, decide_eq_true_eq, List.sum_map_add, ih, hone]

namespace Snapshot

/-! ### Weights in a snapshot -/

/-- The weight of the items with a property. -/
def weightOf (s : Snapshot α) (P : α → Bool) : ℕ :=
  s.buffer.countP P + Levels.weigh (List.countP P) s.levels

theorem addCounts_map (f g : ℕ → ℕ) (js : List ℕ) :
    addCounts (js.map f) (js.map g) = js.map fun j => f j + g j := by
  rw [addCounts, List.zipWith_map, List.zipWith_self]

theorem count_eq [Std.TransCmp cmp] (strategy : CountingStrategy) (splits buffer : List α) :
    strategy.count cmp splits buffer
      = (List.range (splits.length + 1)).map fun j =>
          buffer.countP fun x => bucket cmp splits x = j := by
  cases strategy with
  | bilinear =>
    rw [CountingStrategy.count, countEach_eq]
    simp only [Nat.one_mul]
  | linear =>
    rw [CountingStrategy.count, countSorted_eq 1 splits (sorted_sortBy cmp buffer)]
    simp only [Nat.one_mul, (sortBy_perm cmp buffer).countP_eq]

/-- The counts are the weights of the buckets, whichever way the buffer is counted. -/
theorem counts_eq [Std.TransCmp cmp] (strategy : CountingStrategy) {s : Snapshot α}
    (splits : List α) (h : ∀ b ∈ Levels.occupied s.levels, Sorted cmp b.2) :
    s.counts cmp strategy splits
      = (List.range (splits.length + 1)).map fun j =>
          s.weightOf fun x => bucket cmp splits x = j := by
  have hgen : ∀ (blocks : List (ℕ × List α)) (f : ℕ → ℕ), (∀ b ∈ blocks, Sorted cmp b.2) →
      blocks.foldl (fun counts b =>
          addCounts counts (countSorted cmp (levelWeight b.1) splits b.2))
        ((List.range (splits.length + 1)).map f)
      = (List.range (splits.length + 1)).map fun j =>
          f j + (blocks.map fun b =>
            levelWeight b.1 * b.2.countP fun x => bucket cmp splits x = j).sum := by
    intro blocks
    induction blocks with
    | nil => intro f _; simp
    | cons b blocks ih =>
      intro f hb
      rw [List.foldl_cons, countSorted_eq _ _ (hb b List.mem_cons_self), addCounts_map,
        ih _ fun c hc => hb c (List.mem_cons_of_mem _ hc)]
      simp only [List.map_cons, List.sum_cons, Nat.add_assoc]
  rw [counts, count_eq]
  refine (hgen _ _ h).trans (List.map_congr_left fun j _ => ?_)
  rw [Levels.sum_occupied List.countP_nil, weightOf]

theorem sum_weigh (fs : ℕ → List α → ℕ) (js : List ℕ) (levels : List (List α)) :
    (js.map fun j => Levels.weigh (fs j) levels).sum
      = Levels.weigh (fun level => (js.map fun j => fs j level).sum) levels := by
  induction levels with
  | nil => simp [Levels.weigh]
  | cons level levels ih =>
    simp only [Levels.weigh, List.sum_map_mul_left, List.sum_map_add, ih]

/-- The weights of what has each of the values below `m` add up to that of what has any of
them. -/
theorem sum_weightOf (s : Snapshot α) (f : α → ℕ) (m : ℕ) :
    ((List.range m).map fun j => s.weightOf fun x => f x = j).sum
      = s.weightOf fun x => f x < m := by
  simp only [weightOf, List.sum_map_add, sum_countP_eq, sum_weigh]

/-- The weight of a property adds up the weights of the items that have it. -/
theorem weightOf_eq_sum (s : Snapshot α) (P : α → Bool) :
    s.weightOf P = ((s.weighted.filter fun x => P x.item).map Weighted.weight).sum := by
  have hblocks : ((s.weightedBlocks.filter fun x => P x.item).map Weighted.weight).sum
      = Levels.weigh (List.countP P) s.levels := by
    rw [← Levels.sum_occupied List.countP_nil, weightedBlocks, List.filter_flatMap,
      List.map_flatMap, List.flatMap_def, List.sum_flatten, List.map_map]
    refine congrArg List.sum (List.map_congr_left fun b _ => ?_)
    simp [List.filter_map, Function.comp_def, List.countP_eq_length_filter, Nat.mul_comm]
  have hbuffer : ((s.weightedBuffer.filter fun x => P x.item).map Weighted.weight).sum
      = s.buffer.countP P := by
    simp [weightedBuffer, List.filter_map, Function.comp_def, List.countP_eq_length_filter]
  rw [weighted, List.filter_append, List.map_append, List.sum_append, hblocks, hbuffer,
    Nat.add_comm, weightOf]

/-- The items of a snapshot that passes its check have the weight of the stream. -/
theorem weightOf_true_of_check {s : Snapshot α} (h : s.check = .ok ()) :
    (s.weightOf fun _ => true) = s.n := by
  obtain ⟨hk, hpattern, hbuffer, -, hlevels⟩ := check_eq_ok_iff.mp h
  rw [weightOf, List.countP_true, hlevels.weigh_length hk.pos, hpattern, hbuffer,
    bufferCount, occupancy, Nat.mod_add_div]

/-- Over all buckets, the weights add up to that of the stream. -/
theorem sum_weightOf_bucket {s : Snapshot α} (h : s.check = .ok ()) (splits : List α) :
    ((List.range (splits.length + 1)).map fun j =>
      s.weightOf fun x => bucket cmp splits x = j).sum = s.n := by
  have hall : (fun x => decide (bucket cmp splits x < splits.length + 1)) = fun _ => true :=
    funext fun x => decide_eq_true (bucket_lt splits x)
  rw [sum_weightOf, hall, weightOf_true_of_check h]

/-! ### Histograms -/

/-- A snapshot that passes its check, with blocks in order, has a histogram for any
split points that are in order, and its counts are the weights of the buckets. -/
theorem histogramBy_eq [Std.TransCmp cmp] (strategy : CountingStrategy) {s : Snapshot α}
    {splits : List α} (hcheck : s.check = .ok ()) (hsplits : checkSplitPoints cmp splits = .ok ())
    (hblocks : ∀ b ∈ Levels.occupied s.levels, Sorted cmp b.2) :
    s.histogramBy cmp strategy splits
      = .ok ((List.range (splits.length + 1)).map fun j =>
          s.weightOf fun x => bucket cmp splits x = j) := by
  have hboth : s.checkHistogram cmp splits = .ok () := by
    rw [checkHistogram, hsplits]
    exact hcheck
  have hsum : (s.counts cmp strategy splits).foldl (· + ·) 0 = s.n := by
    rw [← List.sum_eq_foldl, counts_eq strategy splits hblocks, sum_weightOf_bucket hcheck]
  rw [histogramBy, hboth, ← counts_eq strategy splits hblocks]
  simp [hsum]

end Snapshot

namespace Sketch

/-- The weight of the items with a property. -/
def weightOf (s : Sketch α cmp) (P : α → Bool) : ℕ := s.snapshot.weightOf P

theorem weightOf_eq (s : Sketch α cmp) (P : α → Bool) :
    s.weightOf P = s.buffer.toList.countP P + Levels.weigh (List.countP P) s.levels := rfl

theorem weightOf_push (s : Sketch α cmp) (x : α) (P : α → Bool) :
    (s.push x).weightOf P = s.weightOf P + if P x then 1 else 0 := by
  rw [weightOf_eq, weightOf_eq]
  show (s.buffer.push x).toList.countP P + Levels.weigh (List.countP P) s.levels = _
  rw [Array.toList_push, List.countP_append, List.countP_singleton, Nat.add_right_comm]

theorem Sound.sorted_of_mem_occupied {s : Sketch α cmp} (h : s.Sound) :
    ∀ b ∈ Levels.occupied s.snapshot.levels, Sorted cmp b.2 := fun _ hb =>
  (h.standsFor.regular.occupied hb).2

theorem Sound.histogram_eq [Std.TransCmp cmp] {s : Sketch α cmp} {splits : List α} (h : s.Sound)
    (hsplits : checkSplitPoints cmp splits = .ok ()) :
    s.histogram splits = .ok ((List.range (splits.length + 1)).map fun j =>
      s.weightOf fun x => bucket cmp splits x = j) :=
  Snapshot.histogramBy_eq _ h.check_snapshot hsplits h.sorted_of_mem_occupied

/-- The histogram with one split point counts what is below it and what is not. -/
theorem Sound.histogram_singleton [Std.TransCmp cmp] {s : Sketch α cmp} (h : s.Sound) (x : α) :
    s.histogram [x]
      = .ok [s.weightOf fun y => (cmp y x).isLT, s.weightOf fun y => !(cmp y x).isLT] := by
  have hbelow : (fun y => decide (bucket cmp [x] y = 0)) = fun y => (cmp y x).isLT := by
    funext y
    rw [bucket_cons]
    cases (cmp y x).isLT <;> rfl
  have habove : (fun y => decide (bucket cmp [x] y = 1)) = fun y => !(cmp y x).isLT := by
    funext y
    rw [bucket_cons]
    cases (cmp y x).isLT <;> rfl
  rw [h.histogram_eq rfl, weightOf, ← hbelow, weightOf, ← habove]
  rfl

/-- The number of items of the stream below `x`, as the histogram with this split point
has it. -/
def estimate (s : Sketch α cmp) (x : α) : ℕ := ((s.histogram [x]).toOption.getD []).headD 0

theorem Sound.estimate_eq [Std.TransCmp cmp] {s : Sketch α cmp} (h : s.Sound) (x : α) :
    s.estimate x = s.weightOf fun y => (cmp y x).isLT := by
  rw [estimate, h.histogram_singleton x]
  rfl

end Sketch

end QuantileSketch
