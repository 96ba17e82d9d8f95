/-
Snapshots: the contents of a sketch as queries read them.

A snapshot says how many items it stands for and what its layout is, next to the
items themselves, so it can contradict itself.

* `Snapshot.check` — the layout is the one that the block size and the count call
  for;
* `Snapshot.weighted` — every item with the number of items it stands for;
* `Sketch.snapshot` — the snapshot of a sketch.
-/
import QuantileSketch.Sketch.Basic

namespace QuantileSketch

/-- The contents of a sketch. -/
structure Snapshot (α : Type) where
  /-- The block size. -/
  k : Nat
  /-- The number of items in the stream. -/
  n : Nat
  /-- Which levels are said to be occupied. -/
  pattern : Nat
  /-- The latest items. -/
  buffer : List α
  /-- The blocks of earlier items, the lowest level first. -/
  levels : List (List α)
  /-- How many items the buffer is said to hold. -/
  buffered : Nat := buffer.length
  /-- How many items are said to be held altogether. -/
  retained : Nat := retainedCount k n

/-- An item with the number of items of the stream it stands for. -/
structure Weighted (α : Type) where
  item : α
  weight : Nat
  deriving DecidableEq

namespace Snapshot

variable {α : Type}

/-- The number of items that a level must hold. -/
def expectedAt (s : Snapshot α) (level : Nat) : Nat :=
  if s.pattern.testBit level then s.k else 0

/-- The number of items that a level holds. -/
def heldAt (s : Snapshot α) (level : Nat) : Nat :=
  (s.levels[level]?.map List.length).getD 0

/-- A level holds as many items as it must. -/
def checkLevel (s : Snapshot α) (level : Nat) : Except Fault Unit :=
  if s.heldAt level = s.expectedAt level then .ok ()
  else .error (.levelMismatch s.k s.n level (s.heldAt level) (s.expectedAt level))

/-- The layout is the one that the block size and the count call for. -/
def check (s : Snapshot α) : Except Fault Unit := do
  if ¬ Admissible s.k then
    throw (.inadmissibleSize s.k)
  if s.pattern ≠ occupancy s.k s.n then
    throw (.occupancyMismatch s.k s.n s.pattern)
  if s.buffer.length ≠ bufferCount s.k s.n ∨ s.buffer.length ≠ s.buffered then
    throw (.bufferMismatch s.k s.n s.buffer.length)
  (List.range (max s.levels.length (levelCount s.pattern))).forM s.checkLevel

/-- The items of the levels with their weights, the lowest level first. -/
def weightedBlocks (s : Snapshot α) : List (Weighted α) :=
  (Levels.occupied s.levels).flatMap fun (level, block) =>
    block.map fun item => ⟨item, levelWeight level⟩

/-- The items of the buffer with their weights. -/
def weightedBuffer (s : Snapshot α) : List (Weighted α) :=
  s.buffer.map fun item => ⟨item, 1⟩

/-- All items with their weights, the levels first. -/
def weighted (s : Snapshot α) : List (Weighted α) := s.weightedBlocks ++ s.weightedBuffer

end Snapshot

/-- The contents of a sketch. -/
def Sketch.snapshot {α : Type} {cmp : α → α → Ordering} (s : Sketch α cmp) : Snapshot α where
  k := s.k
  n := s.n
  pattern := s.pattern
  buffer := s.buffer.toList
  levels := s.levels

end QuantileSketch
