/-
The layout of a sketch adds up.

All figures of a layout follow from the block size and the count, whatever the block size is:
the buffer and the levels stand for all items, no more are held than there is room for, and
nothing is dropped before a level is there.

* `isLeast_nextPowerOfTwo` — storage that covers a number of items;
* `add_sum_levels` — the count is what is in the buffer, and the weight of the levels;
* `retainedCount_of_lt`, `retainedCount_lt_of_le` — on both sides of a full buffer;
* `retainedCount_le_bufferCapacity`, `bufferCapacity_mono` — what there is room for;
* `Words.layout` — the figures from words of 64 bits, by counting their bits;
* `layout_adds_up` — all of this together.

Design notes: the capacity is given by one formula while there is no level, and by another one
from then on.  A power of two that covers less than a full buffer is no greater than a full
buffer only if that is a power of two itself, so the formulas fit together for such block sizes.
-/
import QuantileSketch.Proofs.Headroom

namespace QuantileSketch

/-! ### Powers of two that cover a number -/

section Doubling

-- The core library keeps the recursion that looks for the power of two to itself.
open private Nat.nextPowerOfTwo.go from Init.Data.Nat.Power2.Basic

theorem le_nextPowerOfTwo_go {n power : ℕ} (h : 0 < power) :
    n ≤ Nat.nextPowerOfTwo.go n power h := by
  fun_induction Nat.nextPowerOfTwo.go n power h with
  | case1 power h hlt ih => exact ih
  | case2 power h hge => exact Nat.le_of_not_lt hge

/-- Doubling does not pass by a power of two that is great enough. -/
theorem nextPowerOfTwo_go_le {n power a b : ℕ} (h : 0 < power) (ha : power = 2 ^ a)
    (hn : n ≤ 2 ^ b) (hle : a ≤ b) : Nat.nextPowerOfTwo.go n power h ≤ 2 ^ b := by
  fun_induction Nat.nextPowerOfTwo.go n power h generalizing a with
  | case1 power h hlt ih =>
    have hab : a < b := (Nat.pow_lt_pow_iff_right Nat.one_lt_two).mp (by omega)
    exact ih (a := a + 1) (by rw [ha, Nat.pow_succ]) hab
  | case2 power h hge =>
    rw [ha]
    exact Nat.pow_le_pow_right Nat.two_pos hle

theorem isLeast_nextPowerOfTwo (n : ℕ) :
    IsLeast {p | n ≤ p ∧ p.isPowerOfTwo} n.nextPowerOfTwo := by
  refine ⟨⟨le_nextPowerOfTwo_go _, Nat.isPowerOfTwo_nextPowerOfTwo n⟩, ?_⟩
  rintro p ⟨hn, b, rfl⟩
  exact nextPowerOfTwo_go_le _ (Nat.pow_zero 2).symm hn (Nat.zero_le b)

end Doubling

/-! ### Bits of a word -/

theorem levelCount_le_iff {p m : ℕ} : levelCount p ≤ m ↔ p < 2 ^ m := by
  refine ⟨fun h => ?_, levelCount_le⟩
  rw [levelCount] at h
  split at h
  · rename_i hp
    rw [hp]
    exact Nat.two_pow_pos m
  · rename_i hp
    exact (Nat.log2_lt hp).mp h

theorem levelCount_mono {p q : ℕ} (h : p ≤ q) : levelCount p ≤ levelCount q :=
  levelCount_le_iff.mpr (Nat.lt_of_le_of_lt h (levelCount_le_iff.mp (Nat.le_refl _)))

theorem levelCount_pos {p : ℕ} (h : p ≠ 0) : 0 < levelCount p := by
  rw [levelCount, if_neg h]
  exact Nat.succ_pos _

theorem length_occupiedLevels_le_levelCount (p : ℕ) :
    (occupiedLevels p).length ≤ levelCount p := by
  rw [occupiedLevels]
  exact (List.length_filter_le _ _).trans_eq List.length_range

/-- Looking for occupied levels further up finds no more. -/
theorem occupiedLevels_eq_filter {p m : ℕ} (h : levelCount p ≤ m) :
    occupiedLevels p = (List.range m).filter p.testBit := by
  induction m, h using Nat.le_induction with
  | base => rfl
  | succ m hle ih =>
    have hbit : p.testBit m = false :=
      Bool.eq_false_iff.mpr fun hbit => (lt_levelCount_of_testBit hbit).not_ge hle
    rw [List.range_succ, List.filter_append, List.filter_cons_of_neg (by rw [hbit]; decide),
      List.filter_nil, List.append_nil, ih]

theorem cpopNatRec_zero_eq_length {w : ℕ} (x : BitVec w) (m : ℕ) :
    x.cpopNatRec m 0 = ((List.range m).filter x.getLsbD).length := by
  induction m with
  | zero => rfl
  | succ m ih =>
    rw [BitVec.cpopNatRec_succ, BitVec.cpopNatRec_add, ih, List.range_succ, List.filter_append,
      List.length_append]
    congr 1
    cases hbit : x.getLsbD m with
    | false =>
      rw [List.filter_cons_of_neg (by rw [hbit]; decide)]
      rfl
    | true =>
      rw [List.filter_cons_of_pos hbit]
      rfl

/-- The ones of a word are the occupied levels of its pattern. -/
theorem toNat_cpop_eq {w : ℕ} (x : BitVec w) :
    x.cpop.toNat = (occupiedLevels x.toNat).length := by
  rw [BitVec.toNat_cpop, cpopNatRec_zero_eq_length,
    occupiedLevels_eq_filter (levelCount_le x.isLt)]
  rfl

/-- What is left of a word without its leading zeros is as long as its pattern. -/
theorem sub_clz_eq {w : ℕ} (x : BitVec w) : w - x.clz.toNat = levelCount x.toNat := by
  refine Nat.le_antisymm ?_ (levelCount_le BitVec.toNat_lt_two_pow_sub_clz)
  by_cases hx : x = 0#w
  · rw [BitVec.clz_eq_iff_eq_zero.mpr hx, BitVec.natCast_eq_ofNat, BitVec.toNat_ofNat,
      Nat.mod_eq_of_lt Nat.lt_two_pow_self, Nat.sub_self]
    exact Nat.zero_le _
  · have hw : 0 < w := by
      rcases Nat.eq_zero_or_pos w with rfl | hw
      · exact absurd (Subsingleton.elim x _) hx
      · exact hw
    -- The bit after the leading zeros is set.
    have hbit := BitVec.two_pow_sub_clz_le_toNat_of_ne_zero hw hx
    have hlt := mt levelCount_le_iff.mp hbit.not_gt
    omega

/-! ### What the figures say -/

/-- A pattern is the sum of its bits. -/
theorem sum_two_pow_testBit {p m : ℕ} (h : p < 2 ^ m) :
    ∑ i ∈ Finset.range m with p.testBit i, 2 ^ i = p := by
  have hset : {i ∈ Finset.range m | p.testBit i} = (occupiedLevels p).toFinset := by
    ext i
    rw [Finset.mem_filter, Finset.mem_range, List.mem_toFinset, mem_occupiedLevels]
    refine ⟨And.right, fun hbit => ⟨?_, hbit⟩⟩
    exact Nat.lt_of_lt_of_le (lt_levelCount_of_testBit hbit) (levelCount_le h)
  have hnodup : (occupiedLevels p).Nodup := List.nodup_range.filter _
  rw [hset, List.sum_toFinset _ hnodup, sum_two_pow_occupiedLevels]

/-- The buffer and the levels stand for all items. -/
theorem add_sum_levels {k n m : ℕ} (h : occupancy k n < 2 ^ m) :
    bufferCount k n + ∑ i ∈ Finset.range m with (occupancy k n).testBit i, k * 2 ^ (i + 1) = n := by
  have hterm : ∀ i, k * 2 ^ (i + 1) = 2 * k * 2 ^ i := fun i => by ring
  simp only [hterm]
  rw [← Finset.mul_sum, sum_two_pow_testBit h]
  exact Nat.mod_add_div n (2 * k)

theorem occupancy_eq_zero_iff {k n : ℕ} (hk : 0 < k) : occupancy k n = 0 ↔ n < 2 * k :=
  Nat.div_eq_zero_iff_lt (Nat.mul_pos Nat.two_pos hk)

theorem bufferCount_lt {k : ℕ} (hk : 0 < k) (n : ℕ) : bufferCount k n < 2 * k :=
  Nat.mod_lt n (Nat.mul_pos Nat.two_pos hk)

/-- Nothing is dropped before a level is there. -/
theorem retainedCount_of_lt {k n : ℕ} (h : n < 2 * k) : retainedCount k n = n := by
  rw [retainedCount, bufferCount, occupancy, Nat.mod_eq_of_lt h, Nat.div_eq_of_lt h]
  show n + 0 * k = n
  rw [Nat.zero_mul, Nat.add_zero]

/-- A block of a level stands for more items than it has. -/
theorem retainedCount_lt_of_le {k n : ℕ} (hk : 0 < k) (h : 2 * k ≤ n) : retainedCount k n < n := by
  have hpos : 0 < occupancy k n := Nat.div_pos h (Nat.mul_pos Nat.two_pos hk)
  have hsplit : bufferCount k n + 2 * k * occupancy k n = n := Nat.mod_add_div n (2 * k)
  rw [Nat.mul_assoc, Nat.mul_comm k] at hsplit
  have hlevels : (occupiedLevels (occupancy k n)).length * k ≤ occupancy k n * k :=
    Nat.mul_le_mul_right k (length_occupiedLevels_le _)
  have hblocks : 0 < occupancy k n * k := Nat.mul_pos hpos hk
  rw [retainedCount]
  omega

theorem retainedCount_le_bufferCapacity {k : ℕ} (hk : 0 < k) (n : ℕ) :
    retainedCount k n ≤ bufferCapacity k n := by
  have hbuffer := bufferCount_lt hk n
  rw [bufferCapacity]
  split
  · rename_i hnone
    have hlt := (occupancy_eq_zero_iff hk).mp hnone
    rw [retainedCount_of_lt hlt, bufferCount, Nat.mod_eq_of_lt hlt]
    exact (isLeast_nextPowerOfTwo n).1.1.trans (Nat.le_max_right _ _)
  · have hlevels : (occupiedLevels (occupancy k n)).length * k ≤ levelCount (occupancy k n) * k :=
      Nat.mul_le_mul_right k (length_occupiedLevels_le_levelCount _)
    rw [retainedCount, Nat.add_mul]
    omega

/-- While there is no level, a power of two has room for one full buffer. -/
theorem bufferCapacity_of_lt {k n : ℕ} (hk : k.isPowerOfTwo) (h : n < 2 * k) :
    bufferCapacity k n = 2 * k := by
  have hfull : (2 * k).isPowerOfTwo := by
    rw [Nat.mul_comm]
    exact Nat.isPowerOfTwo_mul_two_of_isPowerOfTwo hk
  have hle : n.nextPowerOfTwo ≤ 2 * k := (isLeast_nextPowerOfTwo n).2 ⟨h.le, hfull⟩
  have hnone : occupancy k n = 0 := Nat.div_eq_of_lt h
  rw [bufferCapacity, if_pos hnone, bufferCount, Nat.mod_eq_of_lt h]
  exact Nat.max_eq_left hle

theorem bufferCapacity_of_le {k n : ℕ} (hk : 0 < k) (h : 2 * k ≤ n) :
    bufferCapacity k n = (2 + levelCount (occupancy k n)) * k :=
  if_neg (mt (occupancy_eq_zero_iff hk).mp h.not_gt)

theorem bufferCapacity_mono {k : ℕ} (hk : k.isPowerOfTwo) : Monotone (bufferCapacity k) := by
  have hpos : 0 < k := Nat.pos_of_isPowerOfTwo hk
  intro m n hle
  rcases Nat.lt_or_ge n (2 * k) with hn | hn
  · rw [bufferCapacity_of_lt hk hn, bufferCapacity_of_lt hk (Nat.lt_of_le_of_lt hle hn)]
  · rw [bufferCapacity_of_le hpos hn]
    rcases Nat.lt_or_ge m (2 * k) with hm | hm
    · rw [bufferCapacity_of_lt hk hm]
      exact Nat.mul_le_mul_right k (Nat.le_add_right _ _)
    · rw [bufferCapacity_of_le hpos hm]
      refine Nat.mul_le_mul_right k (Nat.add_le_add_left (levelCount_mono ?_) _)
      exact Nat.div_le_div_right hle

/-! ### The figures from words -/

namespace Words

/-- Room for `buffered` items beside a number of levels. -/
def capacity (k buffered levels : ℕ) : Except Overrun ℕ :=
  if levels = 0 then do
    let width ← product 2 k
    return max width buffered.nextPowerOfTwo
  else do
    let slots ← sum 2 levels
    product slots k

/-- The layout for block size `k` and count `n`, from words of 64 bits: levels are counted by
the ones of the occupancy word, and by the leading zeros that it does not have. -/
def layout (k n : ℕ) : Except Overrun Layout := do
  let width ← product 2 k
  let word := BitVec.ofNat 64 (n / width)
  let blocks ← product word.cpop.toNat k
  let retained ← sum (n % width) blocks
  let capacity ← capacity k (n % width) (64 - word.clz.toNat)
  return { buffered := n % width, occupancy := n / width, retained, capacity }

theorem capacity_eq {k n : ℕ} (hk : k < 2 ^ 16) (hlevels : levelCount (occupancy k n) ≤ 64) :
    capacity k (bufferCount k n) (levelCount (occupancy k n)) = .ok (bufferCapacity k n) := by
  rw [capacity, bufferCapacity]
  by_cases hnone : occupancy k n = 0
  · have hzero : levelCount (occupancy k n) = 0 := if_pos hnone
    rw [if_pos hnone, if_pos hzero, product_eq (by omega)]
    rfl
  · have hroom : (2 + levelCount (occupancy k n)) * k ≤ 66 * k :=
      Nat.mul_le_mul_right k (Nat.add_le_add_left hlevels 2)
    rw [if_neg hnone, if_neg (levelCount_pos hnone).ne', sum_eq (by omega)]
    exact product_eq (by omega)

/-- Nothing is cut off on the way to the figures. -/
theorem layout_eq {k n : ℕ} (hk : k < 2 ^ 16) (hn : n < 2 ^ 64) :
    layout k n = .ok {
      buffered := bufferCount k n
      occupancy := QuantileSketch.occupancy k n
      retained := QuantileSketch.retainedCount k n
      capacity := bufferCapacity k n } := by
  have hpattern : n / (2 * k) < 2 ^ 64 := Nat.lt_of_le_of_lt (Nat.div_le_self _ _) hn
  have hword : (BitVec.ofNat 64 (n / (2 * k))).toNat = n / (2 * k) := by
    rw [BitVec.toNat_ofNat, Nat.mod_eq_of_lt hpattern]
  have hlevels : levelCount (n / (2 * k)) ≤ 64 := levelCount_le hpattern
  have hblocks : (occupiedLevels (n / (2 * k))).length * k ≤ 64 * k :=
    Nat.mul_le_mul_right k ((length_occupiedLevels_le_levelCount _).trans hlevels)
  have hretained := retainedCount_le k n
  rw [QuantileSketch.retainedCount, bufferCount, occupancy] at hretained
  rw [layout, product_eq (by omega)]
  show (product (BitVec.ofNat 64 (n / (2 * k))).cpop.toNat k >>= _) = _
  rw [toNat_cpop_eq, hword, product_eq (by omega)]
  show (sum (n % (2 * k)) _ >>= _) = _
  rw [sum_eq (by omega)]
  show (capacity k (n % (2 * k)) (64 - (BitVec.ofNat 64 (n / (2 * k))).clz.toNat) >>= _) = _
  rw [sub_clz_eq, hword]
  show (capacity k (bufferCount k n) (levelCount (occupancy k n)) >>= _) = _
  rw [capacity_eq hk hlevels]
  rfl

end Words

/-- **The layout adds up.**  Whatever the block size, up to that of 16 bits, and the count, up to
that of 64 bits: the figures are those that come from words.  The count is what is in the buffer
and the weight of the occupied levels.  As many items are held as were counted until the buffer
is full for the first time, and fewer from then on.  There is room for all that is held, and if
the block size is a power of two, there is never less room for more items. -/
theorem layout_adds_up {k n : ℕ} (hk : 0 < k) (hwidth : k < 2 ^ 16) (hn : n < 2 ^ 64) :
    Words.layout k n = .ok ⟨bufferCount k n, occupancy k n, retainedCount k n, bufferCapacity k n⟩
      ∧ n = bufferCount k n
          + ∑ i ∈ Finset.range 64 with (occupancy k n).testBit i, k * 2 ^ (i + 1)
      ∧ (n < 2 * k → retainedCount k n = n)
      ∧ (2 * k ≤ n → retainedCount k n < n)
      ∧ retainedCount k n ≤ bufferCapacity k n
      ∧ (k.isPowerOfTwo → Monotone (bufferCapacity k)) := by
  have hpattern : occupancy k n < 2 ^ 64 := Nat.lt_of_le_of_lt (Nat.div_le_self _ _) hn
  exact ⟨Words.layout_eq hwidth hn, (add_sum_levels hpattern).symm, retainedCount_of_lt,
    retainedCount_lt_of_le hk, retainedCount_le_bufferCapacity hk n, bufferCapacity_mono⟩

/-- Of 47 items in blocks of 4, 7 are in the buffer, and a level for 8 and one for 32 are
occupied. -/
theorem layout_adds_up_ofFour :
    Words.layout 4 47 = .ok ⟨7, 5, 15, 20⟩
      ∧ 47 = 7 + ∑ i ∈ Finset.range 64 with Nat.testBit 5 i, 4 * 2 ^ (i + 1)
      ∧ 15 < 47 ∧ bufferCapacity 4 31 ≤ bufferCapacity 4 47 := by
  obtain ⟨hlayout, hsum, -, hlt, -, hmono⟩ :=
    layout_adds_up (k := 4) (n := 47) (by decide) (by decide) (by decide)
  exact ⟨hlayout, hsum, hlt (by decide), hmono ⟨2, rfl⟩ (by decide)⟩

/-- For a block size that is no power of two, there can be less room for more items. -/
example : bufferCapacity 5 10 < bufferCapacity 5 9 := by decide +kernel

end QuantileSketch
