/-
Queries in words of 64 bits.

The count of a snapshot can be the greatest number of 64 bits, and then its levels weigh up to
`2 ^ 62` an item.  Here the queries are written out once more, index by index, with every
shift, product and sum kept to 64 bits, and they stop at the first one that is not:

* `Overrun` — what does not fit into a word, or is not there;
* `Words.counts`, `Words.cumulative` — the counts of a histogram and the running weights of a
  view, as words;
* `Words.countSorted_eq`, `Words.accumulate_eq` — while the weight that is counted and the
  weight that is still to come fit together, nothing is cut off;
* `Snapshot.queries_fit` — so nothing is for a snapshot that passes its check, and the sums at
  the end are its count.

Design notes: the weight that is counted and that which is still to come add up to the count at
every step, also in the middle of a block, and every number that a query forms is part of this
sum.  So nothing is asked of the comparison or of the order of blocks.
-/
import QuantileSketch.Proofs.Totals
import Mathlib.Algebra.Order.BigOperators.Group.List

namespace QuantileSketch

variable {α : Type} {cmp : α → α → Ordering}

/-- What can go wrong with words of 64 bits. -/
inductive Overrun
  /-- A one is shifted out of the word. -/
  | shift (places : ℕ)
  /-- A product does not fit. -/
  | product (x y : ℕ)
  /-- A sum does not fit. -/
  | sum (x y : ℕ)
  /-- There is no counter at this place. -/
  | index (i : ℕ)
  deriving DecidableEq

namespace Words

/-! ### Arithmetic -/

/-- A one, shifted. -/
def shiftedOne (places : ℕ) : Except Overrun ℕ :=
  if places < 64 then .ok (1 <<< places) else .error (.shift places)

def product (x y : ℕ) : Except Overrun ℕ :=
  if x * y < 2 ^ 64 then .ok (x * y) else .error (.product x y)

def sum (x y : ℕ) : Except Overrun ℕ :=
  if x + y < 2 ^ 64 then .ok (x + y) else .error (.sum x y)

/-- Adds to the counter at a place. -/
def addAt (counts : List ℕ) (i weight : ℕ) : Except Overrun (List ℕ) :=
  match counts[i]? with
  | some count => (sum count weight).map fun total => counts.set i total
  | none => .error (.index i)

/-- Adds up counters. -/
def total (counts : List ℕ) : Except Overrun ℕ := counts.foldlM sum 0

/-! ### The queries, with words

Each has the name of what comes to the same without a limit. -/

def levelWeight (level : ℕ) : Except Overrun ℕ := shiftedOne (level + 1)

/-- The number of items held, from the block size and the count. -/
def retainedCount (k n : ℕ) : Except Overrun ℕ := do
  let width ← product 2 k
  let blocks ← product (occupiedLevels (n / width)).length k
  sum (n % width) blocks

/-- Counts each item in its bucket. -/
def countEach (cmp : α → α → Ordering) (weight : ℕ) (splits : List α) :
    List α → List ℕ → Except Overrun (List ℕ)
  | [], counts => return counts
  | x :: xs, counts => do
    let counts ← addAt counts (bucket cmp splits x) weight
    countEach cmp weight splits xs counts

/-- Walks items and split points together, from the split point `j` on.  What is left above
the last split point is counted at once. -/
def countSorted (cmp : α → α → Ordering) (weight : ℕ) (splits : List α) (j : ℕ) (xs : List α)
    (counts : List ℕ) : Except Overrun (List ℕ) :=
  if _ : j < splits.length then
    match xs with
    | [] => return counts
    | x :: rest =>
      if (cmp x splits[j]).isLT then do
        let counts ← addAt counts j weight
        countSorted cmp weight splits j rest counts
      else countSorted cmp weight splits (j + 1) (x :: rest) counts
  else do
    let rest ← product weight xs.length
    addAt counts j rest
termination_by splits.length - j + xs.length

/-- Counts blocks, each with the weight of its level. -/
def countBlocks (cmp : α → α → Ordering) (splits : List α) :
    List (ℕ × List α) → List ℕ → Except Overrun (List ℕ)
  | [], counts => return counts
  | (level, block) :: blocks, counts => do
    let weight ← levelWeight level
    let counts ← countSorted cmp weight splits 0 block counts
    countBlocks cmp splits blocks counts

/-- Counts the buffer, with counters that are all zero so far. -/
def count (cmp : α → α → Ordering) (splits buffer : List α) :
    CountingStrategy → Except Overrun (List ℕ)
  | .bilinear => countEach cmp 1 splits buffer (List.replicate (splits.length + 1) 0)
  | .linear =>
    countSorted cmp 1 splits 0 (sortBy cmp buffer) (List.replicate (splits.length + 1) 0)

/-- The weight in each bucket. -/
def counts (cmp : α → α → Ordering) (strategy : CountingStrategy) (s : Snapshot α)
    (splits : List α) : Except Overrun (List ℕ) := do
  let counts ← count cmp splits s.buffer strategy
  countBlocks cmp splits (Levels.occupied s.levels) counts

/-- The items of blocks, each with the weight of its level. -/
def weightedBlocks : List (ℕ × List α) → Except Overrun (List (Weighted α))
  | [] => return []
  | (level, block) :: blocks => do
    let weight ← levelWeight level
    let rest ← weightedBlocks blocks
    return block.map (fun item => ⟨item, weight⟩) ++ rest

/-- The running weights of items, from a weight on. -/
def accumulate : ℕ → List (Weighted α) → Except Overrun (List ℕ)
  | subtotal, [] => return [subtotal]
  | subtotal, x :: xs => do
    let next ← sum subtotal x.weight
    let rest ← accumulate next xs
    return subtotal :: rest

/-- The running weights of the items of a snapshot in order, for which there is to be one
place more than there are items. -/
def cumulative (cmp : α → α → Ordering) (s : Snapshot α) : Except Overrun (List ℕ) := do
  let blocks ← weightedBlocks (Levels.occupied s.levels)
  let items := blocks ++ s.weightedBuffer
  let _places ← sum items.length 1
  accumulate 0 (sortBlocks (byItem cmp) s.k blocks.length items)

/-! ### What fits -/

theorem product_eq {x y : ℕ} (h : x * y < 2 ^ 64) : product x y = .ok (x * y) := if_pos h

theorem sum_eq {x y : ℕ} (h : x + y < 2 ^ 64) : sum x y = .ok (x + y) := if_pos h

theorem levelWeight_eq {level : ℕ} (h : QuantileSketch.levelWeight level < 2 ^ 64) :
    levelWeight level = .ok (QuantileSketch.levelWeight level) := by
  rw [QuantileSketch.levelWeight_eq, Nat.pow_lt_pow_iff_right Nat.one_lt_two] at h
  exact if_pos h

/-- A counter has room for what all counters together have room for. -/
theorem addAt_eq {counts : List ℕ} {i weight : ℕ} (hi : i < counts.length)
    (h : counts.sum + weight < 2 ^ 64) :
    addAt counts i weight = .ok (counts.modify i (· + weight)) := by
  have hle : counts[i] ≤ counts.sum := List.le_sum_of_mem (List.getElem_mem hi)
  rw [addAt, List.getElem?_eq_getElem hi, List.modify_eq_set_get _ hi]
  show (sum counts[i] weight).map _ = _
  rw [sum_eq (by omega)]
  rfl

theorem sum_modify {counts : List ℕ} {i : ℕ} (hi : i < counts.length) (weight : ℕ) :
    (counts.modify i (· + weight)).sum = counts.sum + weight := by
  induction counts generalizing i with
  | nil => cases hi
  | cons count counts ih =>
    cases i with
    | zero =>
      rw [List.modify_zero_cons, List.sum_cons, List.sum_cons]
      omega
    | succ i =>
      rw [List.modify_succ_cons, List.sum_cons, List.sum_cons, ih (Nat.lt_of_succ_lt_succ hi)]
      omega

theorem total_eq {counts : List ℕ} (h : counts.sum < 2 ^ 64) : total counts = .ok counts.sum := by
  have hgen : ∀ subtotal, subtotal + counts.sum < 2 ^ 64 →
      counts.foldlM sum subtotal = .ok (subtotal + counts.sum) := by
    clear h
    induction counts with
    | nil => exact fun _ _ => rfl
    | cons count counts ih =>
      intro subtotal h
      rw [List.sum_cons, ← Nat.add_assoc] at h
      rw [List.foldlM_cons, sum_eq (by omega), List.sum_cons, ← Nat.add_assoc]
      exact ih _ h
  rw [total, hgen 0 (by omega), Nat.zero_add]

/-! ### Counting -/

theorem countEach_eq (weight : ℕ) {splits xs : List α} {counts : List ℕ}
    (hlength : counts.length = splits.length + 1)
    (h : counts.sum + weight * xs.length < 2 ^ 64) :
    countEach cmp weight splits xs counts
      = .ok (xs.foldl (fun counts x => counts.modify (bucket cmp splits x) (· + weight))
          counts) := by
  induction xs generalizing counts with
  | nil => rfl
  | cons x xs ih =>
    have hi : bucket cmp splits x < counts.length := hlength ▸ bucket_lt splits x
    rw [List.length_cons, Nat.mul_succ] at h
    rw [countEach, addAt_eq hi (by omega), List.foldl_cons]
    refine ih ((List.length_modify _ _ _).trans hlength) ?_
    rw [sum_modify hi]
    omega

/-- What is added to a counter now can as well be added to what it gets later. -/
theorem addCounts_modify (counts : List ℕ) (j weight count : ℕ) (rest : List ℕ) :
    addCounts (counts.modify j (· + weight)) (List.replicate j 0 ++ count :: rest)
      = addCounts counts (List.replicate j 0 ++ (weight + count) :: rest) := by
  induction j generalizing counts with
  | zero =>
    cases counts with
    | nil => rfl
    | cons c counts =>
      show (c + weight + count) :: addCounts counts rest
        = (c + (weight + count)) :: addCounts counts rest
      rw [Nat.add_assoc]
  | succ j ih =>
    cases counts with
    | nil => rfl
    | cons c counts => exact congrArg ((c + 0) :: ·) (ih counts)

theorem addCounts_zeros {counts : List ℕ} {m : ℕ} (h : counts.length = m) :
    addCounts counts (List.replicate m 0) = counts := by
  induction counts generalizing m with
  | nil => rfl
  | cons count counts ih =>
    subst h
    exact congrArg (count :: ·) (ih rfl)

theorem zeros_addCounts {counts : List ℕ} {m : ℕ} (h : counts.length = m) :
    addCounts (List.replicate m 0) counts = counts := by
  rw [addCounts, List.zipWith_comm_of_comm Nat.add_comm]
  exact addCounts_zeros h

theorem countSorted_cons (weight : ℕ) (split : α) (splits xs : List α) :
    QuantileSketch.countSorted cmp weight (split :: splits) xs
      = weight * (xs.takeWhile fun x => (cmp x split).isLT).length
        :: QuantileSketch.countSorted cmp weight splits
            (xs.dropWhile fun x => (cmp x split).isLT) := by
  rw [QuantileSketch.countSorted, List.span_eq_takeWhile_dropWhile]

theorem countSorted_nil (weight : ℕ) (splits : List α) :
    QuantileSketch.countSorted cmp weight splits [] = List.replicate (splits.length + 1) 0 := by
  induction splits with
  | nil => rfl
  | cons split splits ih =>
    rw [countSorted_cons, List.dropWhile_nil, ih]
    rfl

/-- From the split point `j` on, the counters get what there is to count from there on. -/
theorem countSorted_eq (weight : ℕ) {splits : List α} {j : ℕ} {xs : List α} {counts : List ℕ}
    (hj : j ≤ splits.length) (hlength : counts.length = splits.length + 1)
    (h : counts.sum + weight * xs.length < 2 ^ 64) :
    countSorted cmp weight splits j xs counts
      = .ok (addCounts counts (List.replicate j 0
          ++ QuantileSketch.countSorted cmp weight (splits.drop j) xs)) := by
  fun_induction countSorted cmp weight splits j xs counts with
  | case1 j counts hlt =>
    -- Nothing is left to count.
    have hzeros : List.replicate j 0 ++ List.replicate ((splits.drop j).length + 1) 0
        = List.replicate (splits.length + 1) 0 := by
      rw [List.replicate_append_replicate, List.length_drop]
      congr 1
      omega
    rw [countSorted_nil, hzeros, addCounts_zeros hlength]
    rfl
  | case2 j counts hlt x rest hbelow ih =>
    have hi : j < counts.length := by omega
    rw [List.length_cons, Nat.mul_succ] at h
    have hrest := ih (counts.modify j (· + weight)) hj ((List.length_modify _ _ _).trans hlength)
      (by rw [sum_modify hi]; omega)
    rw [List.drop_eq_getElem_cons hlt, countSorted_cons, addCounts_modify] at hrest
    rw [addAt_eq hi (by omega), List.drop_eq_getElem_cons hlt, countSorted_cons,
      List.takeWhile_cons_of_pos (p := fun x => (cmp x splits[j]).isLT) hbelow,
      List.dropWhile_cons_of_pos (p := fun x => (cmp x splits[j]).isLT) hbelow, List.length_cons,
      Nat.mul_succ, Nat.add_comm _ weight]
    exact hrest
  | case3 j counts hlt x rest hbelow ih =>
    rw [ih (by omega) hlength h, List.drop_eq_getElem_cons hlt, countSorted_cons,
      List.takeWhile_cons_of_neg (p := fun x => (cmp x splits[j]).isLT) hbelow,
      List.dropWhile_cons_of_neg (p := fun x => (cmp x splits[j]).isLT) hbelow, List.length_nil,
      Nat.mul_zero, List.replicate_succ', List.append_assoc]
    rfl
  | case4 j xs counts hge =>
    -- All that is left is above the last split point.
    obtain rfl : j = splits.length := by omega
    have hfinal := addCounts_modify counts splits.length (weight * xs.length) 0 []
    rw [← List.replicate_succ', addCounts_zeros ((List.length_modify _ _ _).trans hlength),
      Nat.add_zero] at hfinal
    rw [product_eq (by omega), List.drop_length]
    show addAt counts splits.length (weight * xs.length) = _
    rw [addAt_eq (by omega) h, hfinal]
    rfl

theorem count_eq (strategy : CountingStrategy) {splits buffer : List α}
    (h : buffer.length < 2 ^ 64) :
    count cmp splits buffer strategy = .ok (strategy.count cmp splits buffer) := by
  have hlength : (List.replicate (splits.length + 1) 0).length = splits.length + 1 :=
    List.length_replicate
  have hsum : (List.replicate (splits.length + 1) 0).sum = 0 := by
    rw [List.sum_replicate_nat, Nat.mul_zero]
  cases strategy with
  | bilinear =>
    refine countEach_eq 1 hlength ?_
    rw [hsum]
    omega
  | linear =>
    refine (countSorted_eq 1 (Nat.zero_le _) hlength ?_).trans ?_
    · rw [hsum, length_sortBy]
      omega
    · rw [List.replicate_zero, List.nil_append, List.drop_zero,
        zeros_addCounts (length_countSorted cmp 1 splits _)]
      rfl

/-- An item of a block weighs no more than the whole block. -/
theorem levelWeight_le_mul_length {b : ℕ × List α} (hb : b.2 ≠ []) :
    QuantileSketch.levelWeight b.1 ≤ QuantileSketch.levelWeight b.1 * b.2.length :=
  Nat.le_mul_of_pos_right _ (List.length_pos_iff.mpr hb)

theorem blocksWeight_cons (b : ℕ × List α) (blocks : List (ℕ × List α)) :
    Sketch.blocksWeight (b :: blocks)
      = QuantileSketch.levelWeight b.1 * b.2.length + Sketch.blocksWeight blocks := rfl

theorem countBlocks_eq {splits : List α} {blocks : List (ℕ × List α)} {counts : List ℕ}
    (hblocks : ∀ b ∈ blocks, b.2 ≠ []) (hlength : counts.length = splits.length + 1)
    (h : counts.sum + Sketch.blocksWeight blocks < 2 ^ 64) :
    countBlocks cmp splits blocks counts
      = .ok (QuantileSketch.countBlocks cmp splits blocks counts) := by
  induction blocks generalizing counts with
  | nil => rfl
  | cons b blocks ih =>
    obtain ⟨hb, hrest⟩ := List.forall_mem_cons.mp hblocks
    have hweight := levelWeight_le_mul_length hb
    have hsame := (length_countSorted cmp (QuantileSketch.levelWeight b.1) splits b.2).trans
      hlength.symm
    rw [blocksWeight_cons] at h
    rw [countBlocks, levelWeight_eq (by omega)]
    show (countSorted cmp _ splits 0 b.2 counts >>= _) = _
    rw [countSorted_eq _ (Nat.zero_le _) hlength (by omega), List.replicate_zero,
      List.nil_append, List.drop_zero]
    refine ih hrest ((length_addCounts hsame).trans hlength) ?_
    rw [sum_addCounts hsame, sum_countSorted]
    omega

/-! ### Running weights -/

theorem weightedBlocks_eq {blocks : List (ℕ × List α)} (hblocks : ∀ b ∈ blocks, b.2 ≠ [])
    (h : Sketch.blocksWeight blocks < 2 ^ 64) :
    weightedBlocks blocks = .ok (blocks.flatMap fun b =>
      b.2.map fun item => ⟨item, QuantileSketch.levelWeight b.1⟩) := by
  induction blocks with
  | nil => rfl
  | cons b blocks ih =>
    obtain ⟨hb, hrest⟩ := List.forall_mem_cons.mp hblocks
    have hweight := levelWeight_le_mul_length hb
    rw [blocksWeight_cons] at h
    rw [weightedBlocks, levelWeight_eq (by omega), ih hrest (by omega)]
    rfl

/-- While the weight so far and that which is still to come fit together, so does every
running weight. -/
theorem accumulate_eq {subtotal : ℕ} {xs : List (Weighted α)}
    (h : subtotal + (xs.map Weighted.weight).sum < 2 ^ 64) :
    accumulate subtotal xs = .ok (xs.scanl (fun total x => total + x.weight) subtotal) := by
  induction xs generalizing subtotal with
  | nil => rfl
  | cons x xs ih =>
    rw [List.map_cons, List.sum_cons, ← Nat.add_assoc] at h
    rw [accumulate, sum_eq (by omega)]
    show (accumulate (subtotal + x.weight) xs >>= _) = _
    rw [ih h, List.scanl_cons]
    rfl

/-- There is one place more than items, too. -/
theorem retainedCount_lt {k n : ℕ} (hk : Admissible k) (hn : n < 2 ^ 64) :
    QuantileSketch.retainedCount k n + 1 < 2 ^ 64 := by
  have hlevels : (occupiedLevels (n / (2 * k))).length * k ≤ n / (2 * k) * k :=
    Nat.mul_le_mul_right k (length_occupiedLevels_le _)
  have hsplit := Nat.mod_add_div n (2 * k)
  rw [Nat.mul_assoc, Nat.mul_comm k] at hsplit
  have hmax : k ≤ 32768 := hk.2.1
  have hmod : n % (2 * k) < 2 * k := Nat.mod_lt _ (Nat.mul_pos Nat.two_pos hk.pos)
  show n % (2 * k) + (occupiedLevels (n / (2 * k))).length * k + 1 < 2 ^ 64
  omega

theorem retainedCount_eq {k n : ℕ} (hk : Admissible k) (hn : n < 2 ^ 64) :
    retainedCount k n = .ok (QuantileSketch.retainedCount k n) := by
  have hmax : k ≤ 32768 := hk.2.1
  have hlt := retainedCount_lt hk hn
  rw [QuantileSketch.retainedCount, bufferCount, occupancy] at hlt ⊢
  rw [retainedCount, product_eq (by omega)]
  show (product (occupiedLevels (n / (2 * k))).length k >>= fun blocks => sum (n % (2 * k)) blocks)
    = _
  rw [product_eq (by omega)]
  exact sum_eq (by omega)

end Words

namespace Snapshot

theorem ne_nil_of_mem_occupied {levels : List (List α)} :
    ∀ b ∈ Levels.occupied levels, b.2 ≠ [] := fun _ hb => (Levels.mem_occupiedFrom hb).2

/-- The counts of a histogram fit into words. -/
theorem words_counts_eq (strategy : CountingStrategy) {s : Snapshot α} (hcheck : s.check = .ok ())
    (hn : s.n < 2 ^ 64) (splits : List α) :
    Words.counts cmp strategy s splits = .ok (s.counts cmp strategy splits) := by
  have hweight := length_buffer_add_blocksWeight hcheck
  rw [Words.counts, Words.count_eq strategy (by omega)]
  refine Words.countBlocks_eq ne_nil_of_mem_occupied (strategy.length_count cmp splits s.buffer) ?_
  rw [strategy.sum_count]
  omega

/-- The running weights of a view fit into words. -/
theorem words_cumulative_eq (cmp : α → α → Ordering) {s : Snapshot α} (hcheck : s.check = .ok ())
    (hn : s.n < 2 ^ 64) :
    Words.cumulative cmp s = .ok (SortedView.ofSorted s.n (s.sorted cmp)).cumulative.toList := by
  have hweight := length_buffer_add_blocksWeight hcheck
  have hplaces : s.weighted.length + 1 < 2 ^ 64 := by
    rw [length_weighted hcheck]
    exact Words.retainedCount_lt (check_eq_ok_iff.mp hcheck).1 hn
  rw [Words.cumulative, Words.weightedBlocks_eq ne_nil_of_mem_occupied (by omega)]
  show (Words.sum s.weighted.length 1 >>= fun _ => Words.accumulate 0 (s.sorted cmp)) = _
  rw [Words.sum_eq hplaces]
  refine Words.accumulate_eq ?_
  rw [sum_weight_sorted cmp hcheck, Nat.zero_add]
  exact hn

/-- **Query arithmetic is exact.**  For a snapshot that passes its check, whatever its count and
the order of its blocks, no shift, product, counter or running sum of a query reaches `2 ^ 64`,
and no counter is missing.  Counted in words, the histogram is the one without a limit, for both
ways to count, and its counters add up to the count; so do the weights of a view.  The tests of
these sums are never failed. -/
theorem queries_fit (cmp : α → α → Ordering) {s : Snapshot α} (hcheck : s.check = .ok ())
    (hn : s.n < 2 ^ 64) :
    (∀ strategy splits, checkSplitPoints cmp splits = .ok () →
        ∃ counts, Words.counts cmp strategy s splits = .ok counts
          ∧ s.histogramBy cmp strategy splits = .ok counts
          ∧ counts.length = splits.length + 1
          ∧ counts.sum = s.n ∧ Words.total counts = .ok s.n)
      ∧ Words.retainedCount s.k s.n = .ok (retainedCount s.k s.n)
      ∧ (∃ view : SortedView α, Words.cumulative cmp s = .ok view.cumulative.toList
        ∧ view.cumulative.back? = some s.n
        ∧ (s.weighted.map Weighted.weight).sum = s.n
        ∧ SortedView.ofSnapshot? cmp s = if s.weighted.length = s.retained then .ok view
          else .error (.retainedMismatch s.weighted.length s.retained)) := by
  refine ⟨fun strategy splits hsplits => ?_,
    Words.retainedCount_eq (check_eq_ok_iff.mp hcheck).1 hn, ?_⟩
  · have hsum := sum_counts cmp strategy hcheck splits
    refine ⟨s.counts cmp strategy splits, words_counts_eq strategy hcheck hn splits,
      histogramBy_of_check strategy hcheck hsplits, length_counts cmp strategy s splits, hsum, ?_⟩
    rw [Words.total_eq (by rwa [hsum]), hsum]
  · refine ⟨.ofSorted s.n (s.sorted cmp), words_cumulative_eq cmp hcheck hn, ?_,
      sum_weighted hcheck, ofSnapshot?_of_check cmp hcheck⟩
    rw [SortedView.back?_cumulative_ofSorted, sum_weight_sorted cmp hcheck]

/-- A snapshot with the greatest count of 64 bits, whose 62 blocks are not even in order. -/
def ofMost : Snapshot ℕ where
  k := 2
  n := 2 ^ 64 - 1
  pattern := 2 ^ 62 - 1
  buffer := [5, 3, 4]
  levels := List.replicate 62 [2, 1]

theorem queries_fit_ofMost :
    ofMost.check = .ok () ∧ ofMost.n < 2 ^ 64
      ∧ (∃ counts, Words.counts compare .linear ofMost [2, 4] = .ok counts
        ∧ Words.total counts = .ok (2 ^ 64 - 1))
      ∧ ∃ cumulative, Words.cumulative compare ofMost = .ok cumulative := by
  have hcheck : ofMost.check = .ok () := by rfl
  have hn : ofMost.n < 2 ^ 64 := by decide
  obtain ⟨hcounts, -, view, hview, -⟩ := queries_fit compare hcheck hn
  obtain ⟨counts, hwords, -, -, -, htotal⟩ := hcounts .linear [2, 4] rfl
  exact ⟨hcheck, hn, ⟨counts, hwords, htotal⟩, _, hview⟩

end Snapshot

end QuantileSketch
