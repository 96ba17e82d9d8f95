/-
Feeding items to a sketch.

* `Sketch.update` — adds an item of the stream;
* `Sketch.settle` — adds a block of `k` items in order at a level;
* `Sketch.compact` — turns a full buffer into such a block.
-/
import QuantileSketch.Sketch.Basic

namespace QuantileSketch.Sketch

variable {α : Type} {cmp : α → α → Ordering}

/-- The lesser of what is known and a new item; of tied items the known one. -/
def lesser (cmp : α → α → Ordering) (known : Option α) (x : α) : Option α :=
  match known with
  | some y => if (cmp x y).isLT then some x else some y
  | none => some x

/-- The greater of what is known and a new item; of tied items the known one. -/
def greater (cmp : α → α → Ordering) (known : Option α) (x : α) : Option α :=
  match known with
  | some y => if (cmp y x).isLT then some x else some y
  | none => some x

/-- Adds a block of `k` items in order at level `start`, and notes it if that
makes a new level. -/
def settle (s : Sketch α cmp) (start : Nat) (block : List α) : Randomized (Sketch α cmp) :=
  (Levels.carryAt cmp start s.levels block).bind fun levels =>
    let grown : List Event :=
      if s.levels.length < levels.length then [.grew levels.length s.k s.n] else []
    .notes grown (.done { s with levels })

/-- Turns the buffer into a block: sorts it, and keeps a random half. -/
def compact (s : Sketch α cmp) : Randomized (Sketch α cmp) :=
  (halve (sortBy cmp s.buffer.toList)).bind fun block =>
    { s with buffer := #[] }.settle 0 block

/-- Adds an item to the buffer and to the count. -/
def push (s : Sketch α cmp) (x : α) : Sketch α cmp :=
  { s with
    n := s.n + 1
    buffer := s.buffer.push x
    least := lesser cmp s.least x
    greatest := greater cmp s.greatest x }

/-- Adds an item of the stream; a buffer of `2k` items is compacted. -/
def update (s : Sketch α cmp) (x : α) : Randomized (Sketch α cmp) :=
  let s := s.push x
  if s.buffer.size = 2 * s.k then s.compact else .done s

/-- Adds items of the stream, one after the other. -/
def updateAll (s : Sketch α cmp) : List α → Randomized (Sketch α cmp)
  | [] => .done s
  | x :: xs => (s.update x).bind fun s => s.updateAll xs

end QuantileSketch.Sketch
