/-
The sort of blocks, pass by pass over one list.

`sortBlocks` keeps the runs that are still to be merged as lists of their own.  Here they
are only marked by their length in one flat list, which every pass rewrites: a pass merges
each pair of neighbouring runs, and then the runs are twice as long (`runs_mergePass`).

* `mergePass`, `passes`, `sortInPasses` — one pass, all of them, and the sort;
* `passes_eq` — the passes come to merging the runs of a list until one is left;
* `flatten_blocks` — whole blocks at the front of a list;
* `sortBlocks_stable` — the sort of blocks is the stable sort of the whole list.

Design notes: the last run may be short or without a partner, and it may straddle what was
a block and what was not.  `runs` cuts it all the same, so that no case is needed for it in
the passes.
-/
import QuantileSketch.Proofs.OrderStatistics

namespace QuantileSketch

variable {α : Type} {cmp : α → α → Ordering}

/-! ### Passes -/

/-- Merges each pair of neighbouring runs of `size` items. -/
def mergePass (cmp : α → α → Ordering) (size : ℕ) (xs : List α) : List α :=
  if _ : 0 < size ∧ xs ≠ [] then
    mergeBy cmp (xs.take size) ((xs.drop size).take size)
      ++ mergePass cmp size (xs.drop (2 * size))
  else xs
termination_by xs.length
decreasing_by
  rename_i h
  have hpos : 0 < xs.length := List.length_pos_iff.mpr h.2
  rw [List.length_drop]
  omega

theorem length_mergePass (cmp : α → α → Ordering) (size : ℕ) (xs : List α) :
    (mergePass cmp size xs).length = xs.length := by
  fun_induction mergePass cmp size xs with
  | case1 xs h ih =>
    simp only [List.length_append, length_mergeBy, List.length_take, List.length_drop, ih]
    omega
  | case2 xs h => rfl

/-- Passes over a list in runs of `size` items, which double with every pass, until the
list is one run. -/
def passes (cmp : α → α → Ordering) (size : ℕ) (xs : List α) : List α :=
  if _ : 0 < size ∧ size < xs.length then passes cmp (2 * size) (mergePass cmp size xs) else xs
termination_by xs.length - size
decreasing_by
  rw [length_mergePass]
  omega

/-- Sorts a list whose first `sorted` items are blocks of `size` items, each in order, by
passes over it once the items after the blocks are sorted. -/
def sortInPasses (cmp : α → α → Ordering) (size sorted : ℕ) (xs : List α) : List α :=
  passes cmp size (xs.take sorted ++ sortBy cmp (xs.drop sorted))

/-! ### The runs of a list -/

theorem runs_of_length_le {size : ℕ} {xs : List α} (h : xs.length ≤ size) :
    runs size xs = [xs] := by
  rw [runs, dif_neg]
  exact fun hlt => absurd hlt.2 (Nat.not_lt.mpr h)

theorem runs_append {size : ℕ} (hsize : 0 < size) {xs rest : List α} (hxs : xs.length = size)
    (hrest : rest ≠ []) : runs size (xs ++ rest) = xs :: runs size rest := by
  have hpos : 0 < rest.length := List.length_pos_iff.mpr hrest
  rw [runs, dif_pos ⟨hsize, by rw [List.length_append]; omega⟩, ← hxs, List.take_left,
    List.drop_left]

theorem runs_ne_nil (size : ℕ) (xs : List α) : runs size xs ≠ [] := by
  rw [runs]
  split
  · exact List.cons_ne_nil _ _
  · exact List.cons_ne_nil _ _

theorem mergePass_append {size : ℕ} (hsize : 0 < size) {xs ys : List α} (hxs : xs.length = size)
    (hys : ys.length = size) (rest : List α) :
    mergePass cmp size (xs ++ ys ++ rest) = mergeBy cmp xs ys ++ mergePass cmp size rest := by
  have hne : xs ++ ys ++ rest ≠ [] := by
    refine List.length_pos_iff.mp ?_
    simp only [List.length_append]
    omega
  have htwo : 2 * size = (xs ++ ys).length := by
    rw [List.length_append]
    omega
  conv_lhs => rw [mergePass]
  rw [dif_pos ⟨hsize, hne⟩, htwo, List.drop_left, List.append_assoc, List.take_left' hxs,
    List.drop_left' hxs, List.take_left' hys]

theorem mergePass_of_length_le {size : ℕ} (hsize : 0 < size) {xs ys : List α}
    (hxs : xs.length = size) (hys : ys.length ≤ size) :
    mergePass cmp size (xs ++ ys) = mergeBy cmp xs ys := by
  have hne : xs ++ ys ≠ [] := by
    refine List.length_pos_iff.mp ?_
    rw [List.length_append]
    omega
  have hnil : (xs ++ ys).drop (2 * size) = [] := by
    refine List.drop_eq_nil_of_le ?_
    rw [List.length_append]
    omega
  rw [mergePass, dif_pos ⟨hsize, hne⟩, hnil, mergePass, dif_neg (fun h => h.2 rfl),
    List.append_nil, List.take_left' hxs, List.drop_left' hxs, List.take_of_length_le hys]

theorem mergePass_of_single {size : ℕ} {xs : List α} (hxs : xs.length ≤ size) :
    mergePass cmp size xs = xs := by
  rw [mergePass]
  split
  · have hrest : xs.drop size = [] := List.drop_eq_nil_of_le hxs
    have hnil : xs.drop (2 * size) = [] := List.drop_eq_nil_of_le (by omega)
    rw [hrest, hnil, List.take_nil, List.take_of_length_le hxs, mergePass,
      dif_neg (fun h => h.2 rfl), mergeBy, List.merge_right, List.append_nil]
  · rfl

/-- A pass merges each run of even index with the next one, and what comes out are runs of
twice the length. -/
theorem runs_mergePass {size : ℕ} (hsize : 0 < size) (xs : List α) :
    runs (2 * size) (mergePass cmp size xs) = mergePairs cmp (runs size xs) := by
  induction hlen : xs.length using Nat.strong_induction_on generalizing xs with
  | _ length ih =>
    subst hlen
    by_cases hone : xs.length ≤ size
    · -- One run, which has no partner.
      rw [mergePass_of_single hone, runs_of_length_le hone, runs_of_length_le (by omega)]
      rfl
    obtain ⟨ys, rest, rfl, hys⟩ : ∃ ys rest, xs = ys ++ rest ∧ ys.length = size :=
      ⟨xs.take size, xs.drop size, (List.take_append_drop _ _).symm,
        List.length_take_of_le (by omega)⟩
    rw [List.length_append] at hone
    have hrest : rest ≠ [] := List.length_pos_iff.mp (by omega)
    rw [runs_append hsize hys hrest]
    by_cases htwo : rest.length ≤ size
    · -- Two runs, the second of which may be short.
      rw [mergePass_of_length_le hsize hys htwo, runs_of_length_le htwo, runs_of_length_le]
      · rfl
      · rw [length_mergeBy]
        omega
    obtain ⟨zs, rest, rfl, hzs⟩ : ∃ zs rest', rest = zs ++ rest' ∧ zs.length = size :=
      ⟨rest.take size, rest.drop size, (List.take_append_drop _ _).symm,
        List.length_take_of_le (by omega)⟩
    rw [List.length_append] at htwo
    have hmore : rest ≠ [] := List.length_pos_iff.mp (by omega)
    have hpass : mergePass cmp size rest ≠ [] := by
      refine List.length_pos_iff.mp ?_
      rw [length_mergePass]
      omega
    rw [← List.append_assoc, mergePass_append hsize hys hzs, runs_append hsize hzs hmore,
      mergePairs, runs_append (by omega) (by rw [length_mergeBy]; omega) hpass,
      ih rest.length (by simp only [List.length_append]; omega) rest rfl]

/-- Passes over a list merge its runs until one is left. -/
theorem passes_eq {size : ℕ} (hsize : 0 < size) (xs : List α) :
    passes cmp size xs = mergeRuns cmp (runs size xs) := by
  fun_induction passes cmp size xs with
  | case1 size xs h ih =>
    rw [ih (by omega), runs_mergePass hsize, runs, dif_pos h]
    obtain ⟨r, rs, hrs⟩ := List.exists_cons_of_ne_nil (runs_ne_nil size (xs.drop size))
    rw [hrs, mergePairs, mergeRuns]
  | case2 size xs h =>
    rw [runs_of_length_le (by omega), mergeRuns]

theorem sortInPasses_eq (cmp : α → α → Ordering) {size : ℕ} (hsize : 0 < size) (sorted : ℕ)
    (xs : List α) : sortInPasses cmp size sorted xs = sortBlocks cmp size sorted xs :=
  passes_eq hsize _

/-! ### Blocks at the front of a list -/

/-- The first `count` blocks of `size` items. -/
def blocks (size count : ℕ) (xs : List α) : List (List α) :=
  (List.range count).map fun i => (xs.drop (i * size)).take size

theorem flatten_blocks (size count : ℕ) (xs : List α) :
    (blocks size count xs).flatten = xs.take (count * size) := by
  induction count with
  | zero => simp [blocks]
  | succ count ih =>
    rw [blocks] at ih ⊢
    rw [List.range_succ, List.map_append, List.flatten_append, ih, List.map_singleton,
      List.flatten_singleton, Nat.succ_mul, List.take_add]

/-- **The sort of blocks is a stable sort.**  If the first `sorted` of the weighted items
are whole blocks, each with its items in order, then the sort of blocks, pass by pass or
run by run, gives the stable sort of all of them, whatever comes after the blocks.  Every
item keeps its weight, and items that are tied stand as they did. -/
theorem sortBlocks_stable [Std.TransCmp cmp] {size sorted : ℕ} (hsize : 0 < size)
    (hwhole : size ∣ sorted) {xs : List (Weighted α)} (hle : sorted ≤ xs.length)
    (hblocks : ∀ i < sorted / size,
      Sorted cmp (((xs.drop (i * size)).take size).map Weighted.item)) :
    sortInPasses (byItem cmp) size sorted xs = sortBlocks (byItem cmp) size sorted xs
      ∧ sortBlocks (byItem cmp) size sorted xs = sortBy (byItem cmp) xs
      ∧ (sortBlocks (byItem cmp) size sorted xs).Perm xs
      ∧ StablySorts (byItem cmp) xs (sortBlocks (byItem cmp) size sorted xs) := by
  obtain ⟨count, rfl⟩ := hwhole
  rw [Nat.mul_div_cancel_left count hsize] at hblocks
  rw [Nat.mul_comm] at hle
  have hfront : (blocks size count xs).flatten = xs.take (size * count) := by
    rw [flatten_blocks, Nat.mul_comm]
  have hlength : (blocks size count xs).flatten.length = size * count := by
    rw [hfront, Nat.mul_comm, List.length_take_of_le hle]
  have hsorted : ∀ b ∈ blocks size count xs, b.length = size ∧ Sorted (byItem cmp) b := by
    intro b hb
    obtain ⟨i, hi, rfl⟩ := List.mem_map.mp hb
    have hi : i < count := List.mem_range.mp hi
    have hroom : (i + 1) * size ≤ count * size := Nat.mul_le_mul_right size hi
    rw [Nat.succ_mul] at hroom
    refine ⟨List.length_take_of_le ?_, List.pairwise_map.mp (hblocks i hi)⟩
    rw [List.length_drop]
    omega
  have heq : sortBlocks (byItem cmp) size (size * count) xs = sortBy (byItem cmp) xs := by
    have hsort := sortBlocks_eq hsize hsorted (xs.drop (size * count))
    rwa [hlength, hfront, List.take_append_drop] at hsort
  refine ⟨sortInPasses_eq _ hsize _ xs, heq, ?_, ?_⟩
  · rw [heq]
    exact sortBy_perm _ xs
  · rw [heq]
    exact sortBy_stablySorts xs

/-- Two blocks with tied items of different weights, and three more items. -/
def tiedBlocks : List (Weighted ℕ) :=
  [⟨3, 2⟩, ⟨5, 2⟩, ⟨3, 4⟩, ⟨4, 4⟩, ⟨5, 1⟩, ⟨3, 1⟩, ⟨1, 1⟩]

theorem sortBlocks_stable_tiedBlocks :
    (∀ i < 4 / 2, Sorted compare (((tiedBlocks.drop (i * 2)).take 2).map Weighted.item))
      ∧ sortInPasses (byItem compare) 2 4 tiedBlocks
          = [⟨1, 1⟩, ⟨3, 2⟩, ⟨3, 4⟩, ⟨3, 1⟩, ⟨4, 4⟩, ⟨5, 2⟩, ⟨5, 1⟩]
      ∧ sortBlocks (byItem compare) 2 4 tiedBlocks
          = [⟨1, 1⟩, ⟨3, 2⟩, ⟨3, 4⟩, ⟨3, 1⟩, ⟨4, 4⟩, ⟨5, 2⟩, ⟨5, 1⟩] := by
  have hblocks : ∀ i < 4 / 2,
      Sorted compare (((tiedBlocks.drop (i * 2)).take 2).map Weighted.item) := by
    simp only [Sorted]
    decide
  have hsort : sortBy (byItem compare) tiedBlocks
      = [⟨1, 1⟩, ⟨3, 2⟩, ⟨3, 4⟩, ⟨3, 1⟩, ⟨4, 4⟩, ⟨5, 2⟩, ⟨5, 1⟩] := by
    simp [tiedBlocks, sortBy, List.mergeSort, List.MergeSort.Internal.splitInTwo, byItem, compare,
      compareOfLessAndEq]
  obtain ⟨hpasses, hstable, -, -⟩ :=
    @sortBlocks_stable ℕ compare _ 2 4 (by decide) (by decide) tiedBlocks (by decide) hblocks
  exact ⟨hblocks, (hpasses.trans hstable).trans hsort, hstable.trans hsort⟩

end QuantileSketch
