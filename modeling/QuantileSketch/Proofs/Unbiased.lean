/-
Estimates are right on average.

Which draws a step asks for depends on the block sizes and the counts of the sketches
alone; `updateDraws`, `absorbDraws` and `mergeDraws` list them.  Over all the ways to
answer them, the weight of the items with a property grows on average by exactly what
the step takes in:

* `StandsFor.averages_update`, `StandsFor.averages_absorb`, `StandsFor.averages_merge` —
  one step;
* `updateAllDraws_eq` — a new sketch that sees `n` items of the stream draws
  `n / 2k + n / 4k + n / 8k + …` bits;
* `unbiased` — the same for the counts of histograms.

Design notes: unlike the bound on the error, none of this needs the property to be
initial, or any block to be in order; it is enough that each item of a block is kept for
exactly one offset.
-/
import QuantileSketch.Proofs.Histogram
import QuantileSketch.Proofs.Reachable
import Mathlib.Algebra.BigOperators.Finprod

open scoped BigOperators
open QuantileSketch.Randomized

namespace QuantileSketch

/-! ### The draws of steps -/

/-- The draws of compacting a full buffer onto levels of a pattern. -/
def compactDraws (p : ℕ) : List Draw := .bit :: Levels.carryDraws p 0

/-- The draws of adding an item after `n` items. -/
def updateDraws (k n : ℕ) : List Draw :=
  if bufferCount k n + 1 = 2 * k then compactDraws (occupancy k n) else []

/-- The draws of adding `count` items after `n` items. -/
def updateAllDraws (k : ℕ) : (n count : ℕ) → List Draw
  | _, 0 => []
  | n, count + 1 => updateDraws k n ++ updateAllDraws k (n + 1) count

/-- The draws of thinning out a block. -/
def thinDraws (stride : ℕ) : List Draw :=
  if h : 1 < stride then [.below stride (pos_of_one_lt h)] else []

/-- The draws of adding blocks that come from the levels given to levels of a
pattern. -/
def absorbBlocksDraws (stride shift : ℕ) : (p : ℕ) → List ℕ → List Draw
  | _, [] => []
  | p, level :: levels =>
    thinDraws stride ++ (Levels.carryDraws p (level + shift)
      ++ absorbBlocksDraws stride shift (p + 2 ^ (level + shift)) levels)

/-- The draws of taking in `n'` items in blocks of size `k'` after `n` items. -/
def absorbDraws (k n k' n' : ℕ) : List Draw :=
  updateAllDraws k n (bufferCount k' n')
    ++ absorbBlocksDraws (k' / k) (k' / k).log2 (occupancy k (n + bufferCount k' n'))
      (occupiedLevels (occupancy k' n'))

/-- The draws of bringing a sketch down to a block size. -/
def reducedDraws (k n k' : ℕ) : List Draw := if k' < k then absorbDraws k' 0 k n else []

/-- The draws of merging a sketch into another one. -/
def mergeDraws (k n k' n' : ℕ) : List Draw :=
  if n' = 0 then [] else reducedDraws k n k' ++ absorbDraws (min k k') n k' n'

/-! ### Counting bits -/

/-- The number of bits drawn until the levels have the pattern `p`. -/
noncomputable def bitCount (p : ℕ) : ℕ := ∑ᶠ i : ℕ, p / 2 ^ i

theorem bitCount_eq_sum {p m : ℕ} (h : p ≤ m) :
    bitCount p = ∑ i ∈ Finset.range m, p / 2 ^ i := by
  refine finsum_eq_sum_of_support_subset _ fun i hi => ?_
  rw [Finset.coe_range, Set.mem_Iio]
  by_contra hge
  have hlt : i < 2 ^ i := Nat.lt_two_pow_self
  exact hi (Nat.div_eq_of_lt (by omega))

theorem bitCount_half (p : ℕ) : bitCount p = p + bitCount (p / 2) := by
  rw [bitCount_eq_sum (Nat.le_succ p), bitCount_eq_sum (Nat.div_le_self p 2),
    Finset.sum_range_succ', Nat.pow_zero, Nat.div_one, Nat.add_comm]
  congr 1
  refine Finset.sum_congr rfl fun i _ => ?_
  rw [Nat.pow_succ', Nat.div_div_eq_div_mul]

/-- One more block draws a bit for itself and one for each level that it passes. -/
theorem bitCount_succ (p : ℕ) : bitCount (p + 1) = bitCount p + (carryLength p + 1) := by
  induction p using Nat.strongRecOn with
  | ind p ih =>
    -- An even pattern takes the block at once; an odd one carries it to its half.
    rw [bitCount_half (p + 1), bitCount_half p]
    rcases Nat.mod_two_eq_zero_or_one p with hbit | hbit
    · have hhalf : (p + 1) / 2 = p / 2 := by omega
      rw [hhalf, carryLength, if_neg (by omega)]
      omega
    · have hhalf : (p + 1) / 2 = p / 2 + 1 := by omega
      have hcarry : carryLength p = carryLength (p / 2) + 1 := by
        rw [carryLength, if_pos hbit]
      rw [hhalf, ih (p / 2) (by omega), hcarry]
      omega

theorem updateDraws_eq {k : ℕ} (hk : 0 < k) (n : ℕ) :
    ∃ m, updateDraws k n = List.replicate m .bit
      ∧ bitCount (occupancy k n) + m = bitCount (occupancy k (n + 1)) := by
  have hmod : bufferCount k n + 2 * k * occupancy k n = n := Nat.mod_add_div n (2 * k)
  have hlt : bufferCount k n < 2 * k := Nat.mod_lt n (by omega)
  rw [updateDraws]
  split
  · -- The item fills the buffer, which becomes one block more.
    rename_i hfull
    have hnext : occupancy k (n + 1) = occupancy k n + 1 := by
      refine Nat.div_eq_of_lt_le ?_ ?_ <;> nlinarith
    refine ⟨carryLength (occupancy k n) + 1, ?_, ?_⟩
    · rw [compactDraws, Levels.carryDraws, Nat.pow_zero, Nat.div_one, List.replicate_succ]
    · rw [hnext, bitCount_succ]
  · rename_i hroom
    have hnext : occupancy k (n + 1) = occupancy k n := by
      refine Nat.div_eq_of_lt_le ?_ ?_
      · nlinarith
      · have hlt' : bufferCount k n + 1 < 2 * k := by omega
        nlinarith
    exact ⟨0, rfl, by rw [hnext, Nat.add_zero]⟩

theorem updateAllDraws_eq {k : ℕ} (hk : 0 < k) (n count : ℕ) :
    ∃ m, updateAllDraws k n count = List.replicate m .bit
      ∧ bitCount (occupancy k n) + m = bitCount (occupancy k (n + count)) := by
  induction count generalizing n with
  | zero => exact ⟨0, rfl, rfl⟩
  | succ count ih =>
    obtain ⟨m, hm, hsum⟩ := updateDraws_eq hk n
    obtain ⟨m', hm', hsum'⟩ := ih (n + 1)
    refine ⟨m + m', ?_, ?_⟩
    · rw [updateAllDraws, hm, hm', List.replicate_append_replicate]
    · rw [← Nat.add_assoc, hsum, hsum', Nat.add_assoc, Nat.add_comm 1]

/-- The bits that a new sketch draws for `n` items. -/
theorem bitCount_occupancy (k n : ℕ) :
    bitCount (occupancy k n) = ∑ᶠ i : ℕ, n / (2 * k * 2 ^ i) := by
  refine finsum_congr fun i => ?_
  rw [occupancy, Nat.div_div_eq_div_mul]

namespace Sketch

variable {α : Type} {cmp : α → α → Ordering} (P : α → Bool)

/-! ### Averages over the draws -/

theorem averages_settle (s : Sketch α cmp) (start : ℕ) (block : List α) :
    (s.settle start block).Averages (Levels.carryDraws s.pattern start) (weightOf · P)
      (s.weightOf P + levelWeight start * block.countP P) := by
  have hlevels : (Levels.carryAt cmp start s.levels block).Averages _ _ _ :=
    (Levels.averages_carryAt P start s.levels block).add (s.buffer.toList.countP P)
  rw [Nat.add_comm, ← Nat.add_assoc] at hlevels
  have hsettle := hlevels.bind fun levels _ => by
    have hdone := (averages_done (weightOf · P) ({ s with levels } : Sketch α cmp)).notes
      (if s.levels.length < levels.length then [.grew levels.length s.k s.n] else [])
    rwa [weightOf_eq, Nat.add_comm] at hdone
  rwa [List.append_nil] at hsettle

theorem averages_compact (s : Sketch α cmp) :
    s.compact.Averages (compactDraws s.pattern) (weightOf · P) (s.weightOf P) := by
  have hhalf := (averages_halve P (sortBy cmp s.buffer.toList)).add
    (Levels.weigh (List.countP P) s.levels)
  rw [(sortBy_perm cmp s.buffer.toList).countP_eq] at hhalf
  refine hhalf.bind fun block _ => ?_
  have hsettle := averages_settle P ({ s with buffer := #[] } : Sketch α cmp) 0 block
  have hlevels : ({ s with buffer := #[] } : Sketch α cmp).weightOf P
      = Levels.weigh (List.countP P) s.levels := Nat.zero_add _
  rw [hlevels, Nat.add_comm] at hsettle
  exact hsettle

/-- On average, an item of the stream adds its own weight. -/
theorem StandsFor.averages_update {s : Sketch α cmp} {m : ℕ} (h : s.StandsFor m) (x : α) :
    (s.update x).Averages (updateDraws s.k m) (weightOf · P)
      (s.weightOf P + if P x then 1 else 0) := by
  have hsize : (s.push x).buffer.size = s.buffer.size + 1 := Array.size_push _
  rw [Sketch.update, updateDraws, hsize, ← h.buffer_size, ← h.pattern_eq, ← weightOf_push]
  show Averages _ _ _ (if s.buffer.size + 1 = 2 * s.k then _ else _)
  split
  · exact averages_compact P (s.push x)
  · exact averages_done _ _

theorem StandsFor.averages_updateAll [Std.TransCmp cmp] {s : Sketch α cmp} {m : ℕ}
    (h : s.StandsFor m) (xs : List α) :
    (s.updateAll xs).Averages (updateAllDraws s.k m xs.length) (weightOf · P)
      (s.weightOf P + xs.countP P) := by
  induction xs generalizing s m with
  | nil => exact averages_done _ _
  | cons x xs ih =>
    have hfirst := (h.averages_update P x).add (xs.countP P)
    rw [List.countP_cons, Nat.add_comm (xs.countP P), ← Nat.add_assoc]
    refine hfirst.bind fun t ht => ?_
    rw [← size_of_mem_update ht]
    exact ih (h.update ht)

/-- On average, thinning out a block keeps the weight of its items. -/
theorem averages_thin {stride : ℕ} (h : 0 < stride) (block : List α) :
    (thin stride block).Averages (thinDraws stride) (fun thinned => stride * thinned.countP P)
      (block.countP P) := by
  rw [thin, thinDraws]
  split
  · refine ⟨asks_draw fun _ => rfl, ?_⟩
    rw [ways_cons, ways_nil, Nat.mul_one, ← sum_countP_everyNth h P block, Finset.mul_sum]
    rfl
  · obtain rfl : stride = 1 := by omega
    have hdone := averages_done (fun thinned => 1 * thinned.countP P) block
    rwa [Nat.one_mul] at hdone

theorem StandsFor.averages_absorbBlocks [Std.TransCmp cmp] {s : Sketch α cmp} {m e : ℕ}
    {blocks : List (ℕ × List α)} (h : s.StandsFor m)
    (hblocks : ∀ b ∈ blocks, b.2.length = 2 ^ e * s.k ∧ Sorted cmp b.2) :
    (s.absorbBlocks (2 ^ e) e blocks).Averages
      (absorbBlocksDraws (2 ^ e) e s.pattern (blocks.map Prod.fst)) (weightOf · P)
      (s.weightOf P + (blocks.map fun b => levelWeight b.1 * b.2.countP P).sum) := by
  induction blocks generalizing s m with
  | nil => exact averages_done _ _
  | cons b blocks ih =>
    obtain ⟨hlen, hsorted⟩ := hblocks b List.mem_cons_self
    -- Thinning out, adding the block and adding the others are fair one after the other.
    set rest := (blocks.map fun b => levelWeight b.1 * b.2.countP P).sum
    have hthin := (averages_thin P (Nat.two_pow_pos e) b.2).affine (s.weightOf P + rest)
      (levelWeight b.1)
    rw [Nat.add_right_comm, Nat.add_assoc] at hthin
    refine hthin.bind fun thinned hthinned => ?_
    obtain ⟨offset, rfl⟩ := (mem_thin (Nat.two_pow_pos e)).mp hthinned
    have hsize := length_everyNth_of_eq_mul offset.isLt hlen
    have hsettle := (averages_settle P s (b.1 + e) (everyNth (2 ^ e) offset b.2)).add rest
    have hweight : s.weightOf P + levelWeight (b.1 + e) * (everyNth (2 ^ e) offset b.2).countP P
          + rest
        = s.weightOf P + rest
          + levelWeight b.1 * (2 ^ e * (everyNth (2 ^ e) offset b.2).countP P) := by
      rw [levelWeight_eq, levelWeight_eq]
      ring
    rw [hweight] at hsettle
    refine hsettle.bind fun t ht => ?_
    obtain ⟨levels, hlevels, rfl⟩ := mem_settle.mp ht
    have hpattern := (Levels.carried_of_mem hlevels).pattern_eq h.size.pos hsize h.regular
    have hrest := ih (h.settle hsize (hsorted.everyNth _ _) hlevels)
      fun c hc => hblocks c (List.mem_cons_of_mem _ hc)
    rw [pattern, hpattern] at hrest
    exact hrest

theorem StandsFor.averages_absorb [Std.TransCmp cmp] {s other : Sketch α cmp} {m m' : ℕ}
    (h : s.StandsFor m) (hother : other.StandsFor m') (hle : s.k ≤ other.k) :
    (s.absorb other).Averages (absorbDraws s.k m other.k m') (weightOf · P)
      (s.weightOf P + other.weightOf P) := by
  obtain ⟨e, he, hstride⟩ := h.size.exists_stride hother.size hle
  have hlevels : (Levels.occupied other.levels).map Prod.fst = occupiedLevels other.pattern :=
    Levels.map_fst_occupied other.levels
  have hupdates := (h.averages_updateAll P other.buffer.toList).add
    (Levels.weigh (List.countP P) other.levels)
  rw [Array.length_toList, hother.buffer_size, Nat.add_assoc, ← weightOf_eq] at hupdates
  rw [Sketch.absorb, absorbDraws, hstride, Nat.log2_two_pow]
  refine (hupdates.bind fun t ht => ?_).notes _
  have ht' := h.updateAll ht
  have habsorb := ht'.averages_absorbBlocks P (hother.occupied he ht)
  rw [ht'.pattern_eq, size_of_mem_updateAll ht, hlevels, hother.pattern_eq,
    Levels.sum_occupied List.countP_nil, Array.length_toList, hother.buffer_size] at habsorb
  exact habsorb.map

theorem StandsFor.averages_reduced [Std.TransCmp cmp] {s : Sketch α cmp} {m k : ℕ}
    (h : s.StandsFor m) (hk : Admissible k) :
    (s.reduced k).Averages (reducedDraws s.k m k) (weightOf · P) (s.weightOf P) := by
  rw [Sketch.reduced, reducedDraws]
  split
  · rename_i hlt
    have habsorb := (StandsFor.cleared s hk).averages_absorb P h (Nat.le_of_lt hlt)
    have hnothing : ({ s with k, n := 0, buffer := #[], levels := [] } : Sketch α cmp).weightOf P
        = 0 := rfl
    rw [hnothing, Nat.zero_add] at habsorb
    exact habsorb
  · exact averages_done _ _

/-- On average, merging adds up the weights of both sketches. -/
theorem StandsFor.averages_merge [Std.TransCmp cmp] {s other : Sketch α cmp} {m m' : ℕ}
    {merged : Randomized (Sketch α cmp)} (h : s.StandsFor m) (hother : other.StandsFor m')
    (hn : other.n ≠ 0) (hmerge : s.merge other = .ok merged) :
    merged.Averages (reducedDraws s.k m other.k ++ absorbDraws (min s.k other.k) m other.k m')
      (weightOf · P) (s.weightOf P + other.weightOf P) := by
  rw [merge_eq_ok h.size hother.size hn, Except.ok.injEq] at hmerge
  subst hmerge
  refine ((h.averages_reduced P hother.size).add (other.weightOf P)).bind fun t ht => ?_
  obtain ⟨hstands, hk, -⟩ := h.reduced hother.size ht
  have hle : t.k ≤ other.k := hk ▸ Nat.min_le_right _ _
  have habsorb := hstands.averages_absorb P hother hle
  rw [hk] at habsorb
  exact habsorb.map

/-! ### The counts of histograms -/

theorem averages_estimate [Std.TransCmp cmp] {x : α} {ds : List Draw} {c : ℕ}
    {r : Randomized (Sketch α cmp)} (hsound : ∀ s ∈ r, s.Sound)
    (h : r.Averages ds (weightOf · fun y => (cmp y x).isLT) c) :
    r.Averages ds (estimate · x) c :=
  h.congr fun s hs => ((hsound s hs).estimate_eq x).symm

theorem Sound.averages_merge [Std.TransCmp cmp] {s other : Sketch α cmp}
    {merged : Randomized (Sketch α cmp)} (hs : s.Sound) (hother : other.Sound)
    (hmerge : s.merge other = .ok merged) :
    merged.Averages (mergeDraws s.k s.n other.k other.n) (weightOf · P)
      (s.weightOf P + other.weightOf P) := by
  rw [mergeDraws]
  split
  · rename_i hn
    have hnothing : other.weightOf P = 0 := by
      rw [hother.eq_empty hn]
      rfl
    rw [merge_of_n_eq_zero s hn, Except.ok.injEq] at hmerge
    rw [hnothing, ← hmerge]
    exact averages_done _ _
  · rename_i hn
    exact hs.standsFor.averages_merge P hother.standsFor hn hmerge

/-- On average over the draws, an item of the stream adds to the count of what is below
`x` what it is to add, and merging adds up the counts of both sketches.  The draws are
those that the block sizes and the numbers of items call for; for a stream of `n` items
these are `n / 2k + n / 4k + …` bits. -/
theorem unbiased [Std.TransCmp cmp] (x : α) :
    (∀ s : Sketch α cmp, s.Reachable →
      (∃ above, s.histogram [x] = .ok [s.estimate x, above])
        ∧ (∀ y, (s.update y).Averages (updateDraws s.k s.n) (estimate · x)
            (s.estimate x + if (cmp y x).isLT then 1 else 0))
        ∧ ∀ other : Sketch α cmp, other.Reachable →
          ∃ merged, s.merge other = .ok merged
            ∧ merged.Averages (mergeDraws s.k s.n other.k other.n) (estimate · x)
                (s.estimate x + other.estimate x))
      ∧ ∀ k, Admissible k → ∀ ys : List α, ∃ m, m = ∑ᶠ i : ℕ, ys.length / (2 * k * 2 ^ i)
          ∧ ((empty k : Sketch α cmp).updateAll ys).Asks (List.replicate m .bit)
          ∧ ((empty k : Sketch α cmp).updateAll ys).total (estimate · x)
              = 2 ^ m * ys.countP fun y => (cmp y x).isLT := by
  refine ⟨fun s hs => ?_, fun k hk ys => ?_⟩
  · have hsound := hs.sound
    refine ⟨⟨s.weightOf fun y => !(cmp y x).isLT, ?_⟩, fun y => ?_, fun other hother => ?_⟩
    · rw [hsound.estimate_eq]
      exact hsound.histogram_singleton x
    · rw [hsound.estimate_eq]
      exact averages_estimate (fun s' hs' => hsound.update hs')
        (hsound.standsFor.averages_update _ y)
    · obtain ⟨merged, hmerge, -⟩ := Asserted.merge_eq hsound hother.sound
      refine ⟨merged, hmerge, ?_⟩
      rw [hsound.estimate_eq, hother.sound.estimate_eq]
      exact averages_estimate (fun s' hs' => hsound.merge hother.sound hmerge hs')
        (hsound.averages_merge _ hother.sound hmerge)
  · -- A new sketch has levels of the pattern `0`, for which no bit was drawn.
    have hempty : (empty k : Sketch α cmp).Sound := Sound.empty hk
    obtain ⟨m, hdraws, hm⟩ := updateAllDraws_eq hk.pos 0 ys.length
    have hnone : bitCount (occupancy k 0) = 0 := by
      rw [occupancy, Nat.zero_div, bitCount_eq_sum (Nat.le_refl 0), Finset.sum_range_zero]
    rw [hnone, Nat.zero_add, Nat.zero_add, bitCount_occupancy] at hm
    have haverages : Averages (updateAllDraws k 0 ys.length) (estimate · x) _ _ :=
      averages_estimate (fun s' hs' => hempty.updateAll hs')
        (hempty.standsFor.averages_updateAll (fun y => (cmp y x).isLT) ys)
    rw [hdraws] at haverages
    refine ⟨m, hm, haverages.asks, ?_⟩
    have htotal := haverages.total_eq
    rw [ways_replicate_bit] at htotal
    rw [htotal]
    exact congrArg (2 ^ m * ·) (Nat.zero_add _)

theorem unbiased_afterFive :
    afterFive.Reachable ∧ afterFive.estimate 4 = 4
      ∧ ∃ merged, afterFive.merge afterFive = .ok merged
        ∧ merged.Averages (mergeDraws 2 5 2 5) (estimate · 4) 8 := by
  have hestimate : afterFive.estimate 4 = 4 := by
    rw [reachable_afterFive.sound.estimate_eq]
    rfl
  obtain ⟨-, -, hmerge⟩ := (unbiased 4).1 afterFive reachable_afterFive
  obtain ⟨merged, hmerged, haverages⟩ := hmerge afterFive reachable_afterFive
  rw [hestimate] at haverages
  exact ⟨reachable_afterFive, hestimate, merged, hmerged, haverages⟩

end Sketch

end QuantileSketch
