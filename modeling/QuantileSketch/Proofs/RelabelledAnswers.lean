/-
Answers about images are images of answers.

A sketch that holds the images of items under a map that keeps comparisons is asked the same
questions as the sketch of the items: the counts of its histograms are the same, and so are
the fractions and the running weights that come of them, while the items that it answers with
are the images of those that the sketch of the items gives.  If one fails, so does the other
one, with the same fault:

* `sortBlocks_map`, `Snapshot.counts_map` — the sort of blocks, and both ways to count;
* `SortedView.ofSnapshot?_map`, `Snapshot.histogramBy_map` — views and histograms;
* `Sketch.MapsAnswers`, `Sketch.mapsAnswers_map` — every question to a sketch;
* `only_comparison_decides` — the sketches of a history, and their answers.

Design notes: the lemmas are equations between the two sides, so that a question that is put
together from others is carried over by rewriting with theirs.
-/
import QuantileSketch.Proofs.Oblivious
import QuantileSketch.Proofs.Relabelling
import Mathlib.Data.List.ReduceOption

namespace QuantileSketch

variable {α β : Type} {cmp : α → α → Ordering} {cmp' : β → β → Ordering} {f : α → β}

/-! ### Sorted blocks -/

theorem runs_map (size : ℕ) (xs : List α) :
    runs size (xs.map f) = (runs size xs).map (List.map f) := by
  fun_induction runs size xs with
  | case1 xs h ih =>
    rw [runs, dif_pos (by rwa [List.length_map]), ← List.map_drop, ih, ← List.map_take]
    rfl
  | case2 xs h =>
    rw [runs, dif_neg (by rwa [List.length_map])]
    rfl

section Comparison

variable (hf : ∀ x y, cmp' (f x) (f y) = cmp x y)
include hf

theorem mergePairs_map (rs : List (List α)) :
    mergePairs cmp' (rs.map (List.map f)) = (mergePairs cmp rs).map (List.map f) := by
  fun_induction mergePairs cmp rs with
  | case1 xs ys rest ih =>
    rw [List.map_cons, List.map_cons, mergePairs, mergeBy_map hf, ih]
    rfl
  | case2 rest h =>
    -- Less than two runs are left as they are.
    rcases rest with _ | ⟨xs, _ | ⟨ys, rest⟩⟩
    · rfl
    · rfl
    · exact absurd rfl (h xs ys rest)

theorem mergeRuns_map (rs : List (List α)) :
    mergeRuns cmp' (rs.map (List.map f)) = (mergeRuns cmp rs).map f := by
  fun_induction mergeRuns cmp rs with
  | case1 => rw [List.map_nil, mergeRuns, List.map_nil]
  | case2 xs => rw [List.map_cons, List.map_nil, mergeRuns]
  | case3 xs ys rest ih =>
    rw [List.map_cons, List.map_cons, mergeRuns, mergeBy_map hf, mergePairs_map hf, ← ih]
    rfl

theorem sortBlocks_map (size sorted : ℕ) (xs : List α) :
    sortBlocks cmp' size sorted (xs.map f) = (sortBlocks cmp size sorted xs).map f := by
  rw [sortBlocks, sortBlocks, ← List.map_take, ← List.map_drop, sortBy_map hf, ← List.map_append,
    runs_map, mergeRuns_map hf]

/-! ### Buckets -/

theorem firstNotBelow_map (i : ℕ) (xs : List α) :
    firstNotBelow cmp' i (xs.map f) = firstNotBelow cmp i xs := by
  induction xs generalizing i with
  | nil => rfl
  | cons x xs ih =>
    cases xs with
    | nil => rfl
    | cons y rest =>
      rw [List.map_cons] at ih
      rw [List.map_cons, List.map_cons, firstNotBelow, firstNotBelow, hf, ih]

theorem checkSplitPoints_map (splits : List α) :
    checkSplitPoints cmp' (splits.map f) = checkSplitPoints cmp splits := by
  rw [checkSplitPoints, checkSplitPoints, firstNotBelow_map hf]

theorem bucket_map (splits : List α) (x : α) :
    bucket cmp' (splits.map f) (f x) = bucket cmp splits x := by
  rw [bucket, bucket, List.findIdx_map]
  congr 1
  funext split
  exact congrArg Ordering.isLT (hf x split)

theorem countEach_map (weight : ℕ) (splits xs : List α) :
    countEach cmp' weight (splits.map f) (xs.map f) = countEach cmp weight splits xs := by
  rw [countEach, countEach, List.foldl_map, List.length_map]
  simp only [bucket_map hf]

theorem countSorted_map (weight : ℕ) (splits xs : List α) :
    countSorted cmp' weight (splits.map f) (xs.map f) = countSorted cmp weight splits xs := by
  induction splits generalizing xs with
  | nil => rw [List.map_nil, countSorted, countSorted, List.length_map]
  | cons split splits ih =>
    have htest : (fun x => (cmp' x (f split)).isLT) ∘ f = fun x => (cmp x split).isLT := by
      funext x
      exact congrArg Ordering.isLT (hf x split)
    rw [List.map_cons, countSorted, countSorted]
    simp only [List.span_eq_takeWhile_dropWhile, List.takeWhile_map, List.dropWhile_map, htest,
      List.length_map, ih]

theorem CountingStrategy.count_map (strategy : CountingStrategy) (splits buffer : List α) :
    strategy.count cmp' (splits.map f) (buffer.map f) = strategy.count cmp splits buffer := by
  cases strategy with
  | bilinear => exact countEach_map hf 1 splits buffer
  | linear =>
    rw [CountingStrategy.count, CountingStrategy.count, sortBy_map hf, countSorted_map hf]

end Comparison

/-! ### Snapshots and views -/

/-- The image of the item, with the same weight. -/
def Weighted.map (f : α → β) (x : Weighted α) : Weighted β := ⟨f x.item, x.weight⟩

/-- The snapshot with the images of the items. -/
def Snapshot.map (f : α → β) (s : Snapshot α) : Snapshot β where
  k := s.k
  n := s.n
  pattern := s.pattern
  buffer := s.buffer.map f
  levels := s.levels.map (List.map f)
  buffered := s.buffered
  retained := s.retained

/-- The view with the images of the items, and the same running weights. -/
def SortedView.map (f : α → β) (v : SortedView α) : SortedView β where
  n := v.n
  items := v.items.map f
  cumulative := v.cumulative
  size_cumulative := by rw [v.size_cumulative, Array.size_map]

namespace Snapshot

theorem heldAt_map (s : Snapshot α) (level : ℕ) : (s.map f).heldAt level = s.heldAt level := by
  rw [heldAt, heldAt, map, List.getElem?_map]
  cases s.levels[level]? with
  | none => rfl
  | some block => exact List.length_map _

theorem check_map (s : Snapshot α) : (s.map f).check = s.check := by
  have hlevel : (s.map f).checkLevel = s.checkLevel := by
    funext level
    rw [checkLevel, checkLevel, heldAt_map]
    rfl
  rw [check, check, hlevel]
  simp only [map, List.length_map]

theorem weighted_map (s : Snapshot α) : (s.map f).weighted = s.weighted.map (Weighted.map f) := by
  have hblocks : (s.map f).weightedBlocks = s.weightedBlocks.map (Weighted.map f) := by
    rw [weightedBlocks, weightedBlocks, map, Levels.occupied_map, List.flatMap_map,
      List.map_flatMap]
    refine List.flatMap_congr fun b _ => ?_
    rw [List.map_map]
    exact List.map_map
  have hbuffer : (s.map f).weightedBuffer = s.weightedBuffer.map (Weighted.map f) := by
    rw [weightedBuffer, weightedBuffer, List.map_map]
    exact List.map_map
  rw [weighted, weighted, hblocks, hbuffer, List.map_append]

theorem length_weightedBlocks_map (s : Snapshot α) :
    (s.map f).weightedBlocks.length = s.weightedBlocks.length := by
  rw [weightedBlocks, weightedBlocks, map, Levels.occupied_map, List.flatMap_map]
  simp [List.length_flatMap]

section Comparison

variable (hf : ∀ x y, cmp' (f x) (f y) = cmp x y)
include hf

theorem sorted_map (s : Snapshot α) :
    (s.map f).sorted cmp' = (s.sorted cmp).map (Weighted.map f) := by
  rw [sorted, sorted, weighted_map, length_weightedBlocks_map]
  exact sortBlocks_map (fun x y => hf x.item y.item) _ _ _

theorem counts_map (s : Snapshot α) (strategy : CountingStrategy) (splits : List α) :
    (s.map f).counts cmp' strategy (splits.map f) = s.counts cmp strategy splits := by
  rw [counts, counts, map, Levels.occupied_map, List.foldl_map, strategy.count_map hf]
  simp only [Prod.map_fst, Prod.map_snd, id_eq, countSorted_map hf]

/-- Whichever way the buffer is counted, the counts of images are those of the items. -/
theorem histogramBy_map (s : Snapshot α) (strategy : CountingStrategy) (splits : List α) :
    (s.map f).histogramBy cmp' strategy (splits.map f) = s.histogramBy cmp strategy splits := by
  rw [histogramBy, histogramBy, checkHistogram, checkHistogram, checkSplitPoints_map hf, check_map,
    counts_map hf]
  rfl

theorem histogram_map (s : Snapshot α) (splits : List α) :
    (s.map f).histogram cmp' (splits.map f) = s.histogram cmp splits := by
  rw [histogram, histogram, List.length_map, histogramBy_map hf]

end Comparison

end Snapshot

namespace SortedView

theorem ofSorted_map (n : ℕ) (xs : List (Weighted α)) :
    ofSorted n (xs.map (Weighted.map f)) = (ofSorted n xs).map f := by
  simp [ofSorted, map, List.scanl_map, Weighted.map, Function.comp_def]

theorem ofSnapshot?_map (hf : ∀ x y, cmp' (f x) (f y) = cmp x y) (s : Snapshot α) :
    ofSnapshot? cmp' (s.map f) = (ofSnapshot? cmp s).map (map f) := by
  have htotal : ((s.sorted cmp).map (Weighted.map f)).foldl (fun total x => total + x.weight) 0
      = (s.sorted cmp).foldl (fun total x => total + x.weight) 0 := List.foldl_map
  rw [ofSnapshot?, ofSnapshot?, Snapshot.check_map, Snapshot.weighted_map, Snapshot.sorted_map hf,
    List.length_map]
  simp only [htotal, ofSorted_map]
  cases s.check with
  | error fault => rfl
  | ok u =>
    show (if s.weighted.length ≠ s.retained then .error _
        else if (s.sorted cmp).foldl (fun total x => total + x.weight) 0 ≠ s.n then .error _
        else .ok _ : Except Fault (SortedView β))
      = Except.map (map f) (if s.weighted.length ≠ s.retained then .error _
        else if (s.sorted cmp).foldl (fun total x => total + x.weight) 0 ≠ s.n then .error _
        else .ok _)
    split
    · rfl
    · split
      · rfl
      · rfl

theorem itemAt_map (v : SortedView α) (pos : ℕ) : (v.map f).itemAt pos = (v.itemAt pos).map f :=
  Array.getElem?_map

theorem quantile_map (v : SortedView α) (rank : Float) :
    (v.map f).quantile rank = (v.quantile rank).map (Option.map f) := by
  rw [quantile, quantile]
  cases checkRank rank with
  | error fault => rfl
  | ok u =>
    show Except.ok (if v.isEmpty then none else (v.map f).itemAt (position rank v.n))
      = Except.ok ((if v.isEmpty then none else v.itemAt (position rank v.n)).map f)
    rw [itemAt_map]
    split
    · rfl
    · rfl

end SortedView

namespace Sketch

/-! ### Questions to sketches -/

/-- Every question about images, put to the second sketch, has the answer that the first one
gives about the items, or the images of the items that it answers with.  Faults are the same
on both sides. -/
structure MapsAnswers (f : α → β) (s : Sketch α cmp) (t : Sketch β cmp') : Prop where
  sortedView : t.sortedView = s.sortedView.map (SortedView.map f)
  quantile : ∀ rank, t.quantile rank = (s.quantile rank).map (Option.map f)
  quantiles : ∀ ranks, t.quantiles ranks = (s.quantiles ranks).map (Option.map (List.map f))
  evenQuantiles : ∀ count,
    t.evenQuantiles count = (s.evenQuantiles count).map (Option.map (List.map f))
  histogram : ∀ splits, t.histogram (splits.map f) = s.histogram splits
  pmf : ∀ splits, t.pmf (splits.map f) = s.pmf splits
  cdf : ∀ splits, t.cdf (splits.map f) = s.cdf splits
  rank : ∀ x, t.rank (f x) = s.rank x

theorem snapshot_map (s : Sketch α cmp) :
    (s.map f : Sketch β cmp').snapshot = s.snapshot.map f := by
  have hpattern : (s.map f : Sketch β cmp').pattern = s.pattern := map_pattern s
  rw [snapshot, hpattern]
  simp [snapshot, Snapshot.map, map]

theorem mapM_map_eq {ε γ : Type} {g : γ → Except ε α} {g' : γ → Except ε β}
    (h : ∀ x, g' x = (g x).map f) (xs : List γ) : xs.mapM g' = (xs.mapM g).map (List.map f) := by
  induction xs with
  | nil => rfl
  | cons x xs ih =>
    rw [List.mapM_cons, List.mapM_cons, h, ih]
    cases g x with
    | error fault => rfl
    | ok y =>
      cases xs.mapM g with
      | error fault => rfl
      | ok ys => rfl

theorem quantileIn_map (s : Sketch α cmp) (view : SortedView α) (rank : Float) :
    (s.map f : Sketch β cmp').quantileIn (view.map f) rank
      = (s.quantileIn view rank).map (Option.map f) := by
  rw [quantileIn, quantileIn, SortedView.quantile_map]
  split
  · rfl
  · split
    · rfl
    · rfl

section Comparison

variable (hf : ∀ x y, cmp' (f x) (f y) = cmp x y)
include hf

theorem sortedView_map (s : Sketch α cmp) :
    (s.map f : Sketch β cmp').sortedView = s.sortedView.map (SortedView.map f) := by
  rw [sortedView, sortedView, snapshot_map, SortedView.ofSnapshot?_map hf]

theorem quantile_map (s : Sketch α cmp) (rank : Float) :
    (s.map f : Sketch β cmp').quantile rank = (s.quantile rank).map (Option.map f) := by
  rw [quantile, quantile, sortedView_map hf, map_isEmpty]
  cases checkRank rank with
  | error fault => rfl
  | ok u =>
    show (if s.isEmpty then .ok none
        else if rank == 0 then .ok (s.least.map f)
        else if rank == 1 then .ok (s.greatest.map f)
        else s.sortedView.map (SortedView.map f) >>= fun view => view.quantile rank
          : Except Fault (Option β))
      = Except.map (Option.map f) (if s.isEmpty then .ok none
        else if rank == 0 then .ok s.least
        else if rank == 1 then .ok s.greatest
        else s.sortedView >>= fun view => view.quantile rank)
    split
    · rfl
    · split
      · rfl
      · split
        · rfl
        · cases s.sortedView with
          | error fault => rfl
          | ok view => exact view.quantile_map rank

theorem quantiles_map (s : Sketch α cmp) (ranks : List Float) :
    (s.map f : Sketch β cmp').quantiles ranks
      = (s.quantiles ranks).map (Option.map (List.map f)) := by
  rw [quantiles, quantiles, sortedView_map hf, map_isEmpty]
  cases checkRanks ranks with
  | error fault => rfl
  | ok u =>
    show (if s.isEmpty then .ok none
        else s.sortedView.map (SortedView.map f) >>= fun view =>
          ranks.mapM ((s.map f : Sketch β cmp').quantileIn view) >>= fun items =>
            .ok (some items.reduceOption) : Except Fault (Option (List β)))
      = Except.map (Option.map (List.map f)) (if s.isEmpty then .ok none
        else s.sortedView >>= fun view =>
          ranks.mapM (s.quantileIn view) >>= fun items => .ok (some items.reduceOption))
    split
    · rfl
    · cases s.sortedView with
      | error fault => rfl
      | ok view =>
        show ranks.mapM ((s.map f : Sketch β cmp').quantileIn (view.map f)) >>= _
          = Except.map _ (ranks.mapM (s.quantileIn view) >>= _)
        rw [mapM_map_eq (quantileIn_map s view)]
        cases ranks.mapM (s.quantileIn view) with
        | error fault => rfl
        | ok items => exact congrArg (fun xs => Except.ok (some xs)) List.reduceOption_map

theorem histogram_map (s : Sketch α cmp) (splits : List α) :
    (s.map f : Sketch β cmp').histogram (splits.map f) = s.histogram splits := by
  rw [histogram, histogram, snapshot_map, Snapshot.histogram_map hf]

theorem normalized_map (form : ℕ → List ℕ → List Float) (s : Sketch α cmp) (splits : List α) :
    (s.map f : Sketch β cmp').normalized form (splits.map f) = s.normalized form splits := by
  rw [normalized, normalized, checkSplitPoints_map hf, map_isEmpty, histogram_map hf]
  rfl

/-- A sketch of images answers as the sketch of the items does. -/
theorem mapsAnswers_map (s : Sketch α cmp) : s.MapsAnswers f (s.map f : Sketch β cmp') where
  sortedView := sortedView_map hf s
  quantile := quantile_map hf s
  quantiles := quantiles_map hf s
  evenQuantiles count := by
    rw [evenQuantiles, evenQuantiles, quantiles_map hf]
    split
    · rfl
    · rfl
  histogram := histogram_map hf s
  pmf := normalized_map hf _ s
  cdf := normalized_map hf _ s
  rank x := by
    have hcdf : (s.map f : Sketch β cmp').cdf [f x] = s.cdf [x] := normalized_map hf _ s [x]
    rw [rank, rank, hcdf]

end Comparison

end Sketch

/-- **Only the comparison decides.**  Take a map under which items compare as before, be they
of another type.  A history of images, with the same sources, makes in each slot the sketch of
the images, item for item and level for level, whose source is in the same state.  That sketch
has the same occupied levels and the same counts, fractions and running weights, and answers
with the images of the items that the sketch of the items answers with. -/
theorem only_comparison_decides {ρ : Type} [RandomSource ρ]
    (hf : ∀ x y, cmp' (f x) (f y) = cmp x y) (ops : List (Operation α ρ)) (slot : ℕ) :
    history cmp' (ops.map (Operation.map f)) slot = (history cmp ops slot).map (LiveSketch.map f)
      ∧ ∀ s ∈ history cmp ops slot,
        (s.map f : LiveSketch β cmp' ρ).sketch.pattern = s.sketch.pattern
          ∧ s.sketch.MapsAnswers f (s.map f : LiveSketch β cmp' ρ).sketch :=
  ⟨history_map hf ops slot, fun s _ =>
    ⟨Sketch.map_pattern s.sketch, Sketch.mapsAnswers_map hf s.sketch⟩⟩

/-- Numbers that are compared by their halves, so that some are tied, and the halves. -/
theorem only_comparison_decides_mergedStreams :
    (∀ x y : ℕ, compare (x / 2) (y / 2) = compareOn (· / 2) x y)
      ∧ ∃ s t, history (compareOn (· / 2)) (mergedStreams (XorShift.ofSeed 1) id) 0 = some s
        ∧ history compare (mergedStreams (XorShift.ofSeed 1) (· / 2)) 0 = some t
        ∧ t = s.map (· / 2)
        ∧ ∀ rank, t.sketch.quantile rank = (s.sketch.quantile rank).map (Option.map (· / 2)) := by
  have hf : ∀ x y : ℕ, compare (x / 2) (y / 2) = compareOn (· / 2) x y := fun _ _ => rfl
  have hsome : ∃ s, history (compareOn (· / 2)) (mergedStreams (XorShift.ofSeed 1) id) 0 = some s :=
    Option.isSome_iff_exists.mp rfl
  obtain ⟨s, hs⟩ := hsome
  obtain ⟨hhistory, hanswers⟩ :=
    only_comparison_decides hf (mergedStreams (XorShift.ofSeed 1) id) 0
  rw [hs] at hhistory
  exact ⟨hf, s, _, hs, hhistory, rfl, (hanswers s hs).2.quantile⟩

end QuantileSketch
