/-
The layout of a sketch, as arithmetic on its block size `k` and its count `n`.

The levels of a sketch are a binary counter over groups of `2k` items: after `n`
items level `i` is occupied exactly if bit `i` of `n / 2k` is set, and the buffer
holds the `n mod 2k` most recent items.

* `Admissible k` — the block sizes a sketch may have;
* `bufferCount`, `occupancy`, `retainedCount`, `bufferCapacity` — the layout of a
  sketch of block size `k` that stands for `n` items;
* `levelCount`, `occupiedLevels` — what an occupancy pattern says about levels.

Design notes: everything is arithmetic on `Nat`; an occupancy pattern is a number
whose bit `i`, `Nat.testBit`, tells whether level `i` is occupied.
-/

namespace QuantileSketch

/-! ### Block sizes -/

/-- The block size of a sketch for which none is asked. -/
def defaultSize : Nat := 128

/-- The least block size. -/
def minSize : Nat := 2

/-- The greatest block size. -/
def maxSize : Nat := 1 <<< 15

/-- A block size is a power of two between `minSize` and `maxSize`. -/
def Admissible (k : Nat) : Prop :=
  minSize ≤ k ∧ k ≤ maxSize ∧ k.isPowerOfTwo

instance (k : Nat) : Decidable (Admissible k) :=
  inferInstanceAs (Decidable (_ ∧ _ ∧ _))

theorem Admissible.pos {k : Nat} (h : Admissible k) : 0 < k :=
  Nat.lt_of_lt_of_le (by decide) h.1

/-! ### Occupancy patterns -/

/-- The number of levels that an occupancy pattern spans, empty ones included. -/
def levelCount (pattern : Nat) : Nat :=
  if pattern = 0 then 0 else pattern.log2 + 1

/-- The occupied levels of a pattern, lowest first. -/
def occupiedLevels (pattern : Nat) : List Nat :=
  (List.range (levelCount pattern)).filter pattern.testBit

theorem lt_levelCount_of_testBit {pattern i : Nat} (h : pattern.testBit i = true) :
    i < levelCount pattern := by
  have hge := Nat.ge_two_pow_of_testBit h
  have hpos : pattern ≠ 0 := by
    rintro rfl
    simp at h
  rw [levelCount, if_neg hpos, Nat.lt_succ_iff]
  exact (Nat.le_log2 hpos).mpr hge

/-- The occupied levels are those whose bit is set. -/
@[simp] theorem mem_occupiedLevels {pattern i : Nat} :
    i ∈ occupiedLevels pattern ↔ pattern.testBit i = true := by
  rw [occupiedLevels, List.mem_filter, List.mem_range]
  exact ⟨fun h => h.2, fun h => ⟨lt_levelCount_of_testBit h, h⟩⟩

/-- The weight of an item at a level: the number of items it stands for. -/
def levelWeight (level : Nat) : Nat := 1 <<< (level + 1)

/-! ### Block size and count -/

/-- The number of items in the buffer. -/
def bufferCount (k n : Nat) : Nat := n % (2 * k)

/-- The occupancy pattern of the levels. -/
def occupancy (k n : Nat) : Nat := n / (2 * k)

/-- The number of items held in the buffer and in all levels. -/
def retainedCount (k n : Nat) : Nat :=
  bufferCount k n + (occupiedLevels (occupancy k n)).length * k

/-- The number of items that storage for the buffer and the levels has room for.
While there is no level this is the buffer's nominal size `2k`, or the power of
two that covers its items. -/
def bufferCapacity (k n : Nat) : Nat :=
  if occupancy k n = 0 then max (2 * k) (bufferCount k n).nextPowerOfTwo
  else (2 + levelCount (occupancy k n)) * k

/-- The layout of a sketch in figures. -/
structure Layout where
  buffered : Nat
  occupancy : Nat
  retained : Nat
  capacity : Nat
  deriving DecidableEq

/-- The layout for block size `k` and count `n`; blocks of size zero have none. -/
def Layout.of? (k n : Nat) : Option Layout :=
  if k = 0 then none
  else some {
    buffered := bufferCount k n
    occupancy := QuantileSketch.occupancy k n
    retained := retainedCount k n
    capacity := bufferCapacity k n }

end QuantileSketch
