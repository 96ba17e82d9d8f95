/-
What the buckets of a histogram hold.

Split points that are accepted are strictly increasing (`checkSplitPoints_eq_ok_iff`),
although only neighbours are compared.  An item is then below a split point exactly if
its bucket is no later (`bucket_le_iff`), so a bucket holds what is not below the split
point before it, and below the one after it (`bucket_eq_iff`).

* `InBucket` — the items that belong into a bucket, in terms of its two split points;
* `Snapshot.histogram_counts` — a histogram counts the weights of these, whichever way the
  buffer is counted.
-/
import QuantileSketch.Proofs.Histogram

namespace QuantileSketch

variable {α : Type} {cmp : α → α → Ordering}

/-! ### Split points -/

theorem isLT_trans [Std.TransCmp cmp] {x y z : α} (hxy : (cmp x y).isLT)
    (hyz : (cmp y z).isLT) : (cmp x z).isLT := by
  rw [Ordering.isLT_iff_eq_lt] at hxy hyz ⊢
  exact Std.TransCmp.lt_trans hxy hyz

/-- Comparing neighbours finds out whether a list is strictly increasing. -/
theorem firstNotBelow_eq_none_iff [Std.TransCmp cmp] {i : ℕ} {xs : List α} :
    firstNotBelow cmp i xs = none ↔ xs.Pairwise fun x y => (cmp x y).isLT := by
  induction xs generalizing i with
  | nil => simp [firstNotBelow]
  | cons x xs ih =>
    cases xs with
    | nil => simp [firstNotBelow]
    | cons y rest =>
      rw [firstNotBelow, List.pairwise_cons]
      constructor
      · intro h
        split at h
        · rename_i hxy
          have hrest := ih.mp h
          refine ⟨fun z hz => ?_, hrest⟩
          rcases List.mem_cons.mp hz with rfl | hz
          · exact hxy
          · exact isLT_trans hxy ((List.pairwise_cons.mp hrest).1 z hz)
        · cases h
      · rintro ⟨hx, hrest⟩
        rw [if_pos (hx y List.mem_cons_self)]
        exact ih.mpr hrest

theorem checkSplitPoints_eq_ok_iff [Std.TransCmp cmp] {splits : List α} :
    checkSplitPoints cmp splits = .ok () ↔ splits.Pairwise fun x y => (cmp x y).isLT := by
  rw [← firstNotBelow_eq_none_iff (i := 0), checkSplitPoints]
  cases firstNotBelow cmp 0 splits with
  | none => simp
  | some i => simp

/-! ### Buckets -/

/-- What is below a split point is in the bucket before it, or an earlier one. -/
theorem bucket_le_iff [Std.TransCmp cmp] {splits : List α}
    (h : splits.Pairwise fun x y => (cmp x y).isLT) {j : ℕ} (hj : j < splits.length) (x : α) :
    bucket cmp splits x ≤ j ↔ (cmp x splits[j]).isLT := by
  constructor
  · intro hle
    have hlt : bucket cmp splits x < splits.length := Nat.lt_of_le_of_lt hle hj
    have hbelow : (cmp x splits[bucket cmp splits x]).isLT := List.findIdx_getElem (w := hlt)
    rcases Nat.lt_or_eq_of_le hle with hlater | hsame
    · exact isLT_trans hbelow (List.pairwise_iff_getElem.mp h _ _ hlt hj hlater)
    · simpa only [hsame] using hbelow
  · intro hbelow
    by_contra hgt
    have hnot : (cmp x splits[j]).isLT = false := List.not_of_lt_findIdx (Nat.not_le.mp hgt)
    rw [hbelow] at hnot
    cases hnot

/-- The item is not below the split point before the bucket, if there is one, and below
the split point after it, if there is one. -/
def InBucket (cmp : α → α → Ordering) (splits : List α) (j : ℕ) (x : α) : Prop :=
  (0 < j → ∀ split ∈ splits[j - 1]?, ¬ (cmp x split).isLT)
    ∧ ∀ split ∈ splits[j]?, (cmp x split).isLT

instance (splits : List α) (j : ℕ) : DecidablePred (InBucket cmp splits j) := fun _ =>
  inferInstanceAs (Decidable ((_ → ∀ _ ∈ _, _) ∧ ∀ _ ∈ _, _))

theorem bucket_eq_iff [Std.TransCmp cmp] {splits : List α}
    (h : splits.Pairwise fun x y => (cmp x y).isLT) {j : ℕ} (hj : j ≤ splits.length) (x : α) :
    bucket cmp splits x = j ↔ InBucket cmp splits j x := by
  have hlower : (0 < j → ∀ split ∈ splits[j - 1]?, ¬ (cmp x split).isLT)
      ↔ j ≤ bucket cmp splits x := by
    rcases Nat.eq_zero_or_pos j with rfl | hpos
    · simp
    · have hprev : j - 1 < splits.length := by omega
      have hiff := bucket_le_iff h hprev x
      rw [List.getElem?_eq_getElem hprev]
      simp only [hpos, Option.mem_some_iff, forall_eq', true_imp_iff, ← hiff]
      omega
  have hupper : (∀ split ∈ splits[j]?, (cmp x split).isLT) ↔ bucket cmp splits x ≤ j := by
    rcases Nat.lt_or_eq_of_le hj with hlt | rfl
    · rw [List.getElem?_eq_getElem hlt]
      simp only [Option.mem_some_iff, forall_eq', bucket_le_iff h hlt x]
    · -- The last bucket has no split point after it.
      have hlast : bucket cmp splits x < splits.length + 1 := bucket_lt splits x
      simp only [List.getElem?_length, Option.not_mem_none, false_imp_iff, implies_true, true_iff]
      omega
  rw [InBucket, hlower, hupper]
  omega

/-! ### Histograms -/

namespace Snapshot

/-- A snapshot that passes its check, with blocks in order, has the same histogram for both
ways to count its buffer.  There is one count for each bucket, which adds up the weights of
the items that lie between the split points around it. -/
theorem histogram_counts [Std.TransCmp cmp] {s : Snapshot α} {splits : List α}
    (hcheck : s.check = .ok ()) (hblocks : ∀ b ∈ Levels.occupied s.levels, Sorted cmp b.2)
    (hsplits : checkSplitPoints cmp splits = .ok ()) :
    ∃ counts, (∀ strategy, s.histogramBy cmp strategy splits = .ok counts)
      ∧ s.histogram cmp splits = .ok counts ∧ counts.length = splits.length + 1
      ∧ ∀ j ≤ splits.length, counts[j]?
          = some ((s.weighted.filter fun x => InBucket cmp splits j x.item).map
              Weighted.weight).sum := by
  refine ⟨_, fun strategy => histogramBy_eq strategy hcheck hsplits hblocks,
    histogramBy_eq _ hcheck hsplits hblocks, ?_, ?_⟩
  · rw [List.length_map, List.length_range]
  · intro j hj
    have hbucket : (fun x => decide (bucket cmp splits x = j))
        = fun x => decide (InBucket cmp splits j x) :=
      funext fun x => decide_eq_decide.mpr
        (bucket_eq_iff (checkSplitPoints_eq_ok_iff.mp hsplits) hj x)
    rw [List.getElem?_map, List.getElem?_range (by omega), Option.map_some, hbucket,
      weightOf_eq_sum]

/-- Two levels of two items, one of them with the item of the buffer twice. -/
def ofThirteen : Snapshot ℕ where
  k := 2
  n := 13
  pattern := 3
  buffer := [2]
  levels := [[1, 3], [2, 2]]

theorem histogram_counts_ofThirteen :
    ofThirteen.check = .ok () ∧ (∀ b ∈ Levels.occupied ofThirteen.levels, Sorted compare b.2)
      ∧ checkSplitPoints compare [2, 3] = .ok ()
      ∧ ∀ strategy, ofThirteen.histogramBy compare strategy [2, 3] = .ok [2, 9, 2] := by
  have hcheck : ofThirteen.check = .ok () := rfl
  have hsplits : checkSplitPoints compare [2, 3] = .ok () := rfl
  have hblocks : ∀ b ∈ Levels.occupied ofThirteen.levels, Sorted compare b.2 := by
    simp only [Sorted]
    decide
  obtain ⟨counts, hcounts, -, hlength, hbuckets⟩ := histogram_counts hcheck hblocks hsplits
  obtain ⟨a, b, c, rfl⟩ : ∃ a b c, counts = [a, b, c] := List.length_eq_three.mp hlength
  have ha : a = 2 := Option.some.inj (hbuckets 0 (by decide))
  have hb : b = 9 := Option.some.inj (hbuckets 1 (by decide))
  have hc : c = 2 := Option.some.inj (hbuckets 2 (by decide))
  rw [ha, hb, hc] at hcounts
  exact ⟨hcheck, hblocks, hsplits, hcounts⟩

end Snapshot

end QuantileSketch
