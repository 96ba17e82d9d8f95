/-
Sketches of a stream of items, from which its quantiles can be estimated.

A sketch holds the latest items of the stream in a buffer, and for what came
before them blocks of `k` items at levels; an item of level `i` stands for
`2 ^ (i + 1)` items of the stream.  The least and the greatest item of the
stream are kept as well.

* `Sketch.empty`, `Sketch.ofSize?` — a sketch that has seen nothing;
* `Sketch.reset` — forgets the stream;
* `Sketch.retained`, `Sketch.pattern` — what a sketch holds.

Design notes: the order of the items is part of the type of a sketch, so that
only sketches with the same order can be merged.  What ties `n`, the buffer and
the levels together is kept by every operation, and stated in theorems.
-/
import QuantileSketch.Layout
import QuantileSketch.Levels

namespace QuantileSketch

/-- A sketch of a stream of items, compared by `cmp`. -/
structure Sketch (α : Type) (cmp : α → α → Ordering) where
  /-- The block size. -/
  k : Nat
  /-- The number of items in the stream. -/
  n : Nat := 0
  /-- The latest items, in order of arrival. -/
  buffer : Array α := #[]
  /-- The blocks that stand for earlier items, the lowest level first. -/
  levels : List (List α) := []
  /-- The least item of the stream. -/
  least : Option α := none
  /-- The greatest item of the stream. -/
  greatest : Option α := none
  deriving DecidableEq

namespace Sketch

variable {α : Type} {cmp : α → α → Ordering}

/-- The sketch of block size `k` that has seen nothing. -/
def empty (k : Nat) : Sketch α cmp := { k }

/-- The sketch of block size `k` that has seen nothing, if sketches can have that
block size. -/
def ofSize? (k : Nat) : Except Fault (Sketch α cmp) :=
  if Admissible k then .ok (empty k) else .error (.inadmissibleSize k)

/-- Forgets the stream and keeps the block size. -/
def reset (s : Sketch α cmp) : Sketch α cmp := empty s.k

/-- The sketch has seen nothing. -/
def isEmpty (s : Sketch α cmp) : Bool := s.n = 0

/-- The sketch has compacted its buffer at least once, so that its answers are
estimates. -/
def isEstimating (s : Sketch α cmp) : Bool := 2 * s.k ≤ s.n

/-- The number of items that the sketch holds. -/
def retained (s : Sketch α cmp) : Nat := s.buffer.size + Levels.size s.levels

/-- Which levels are occupied. -/
def pattern (s : Sketch α cmp) : Nat := Levels.pattern s.levels

/-- The number of items that storage for the sketch has room for. -/
def capacity (s : Sketch α cmp) : Nat := bufferCapacity s.k s.n

end Sketch

end QuantileSketch
