/-
Merging sketches.

The buffer of the other sketch is fed item by item, and its blocks are added at
their levels.  Of two block sizes the smaller one wins: a block of a sketch with
block size `2 ^ e · k` is thinned out to `k` items, each of which stands for as
many items of the stream as an item `e` levels higher.

* `Sketch.absorb` — takes in the contents of a sketch of no smaller block size;
* `Sketch.shrink` — brings a sketch to a smaller block size;
* `Sketch.merge` — the sketch of both streams.
-/
import QuantileSketch.Sketch.Update

namespace QuantileSketch.Sketch

variable {α : Type} {cmp : α → α → Ordering}

/-- A block thinned out to every `stride`-th item, from a random one. -/
def thin (stride : Nat) (block : List α) : Randomized (List α) :=
  if h : 1 < stride then
    .draw (.below stride (Nat.lt_trans Nat.one_pos h)) fun offset =>
      .done (everyNth stride offset block)
  else .done block

/-- Adds blocks, each thinned out and added at its level. -/
def absorbBlocks (stride shift : Nat) (s : Sketch α cmp) :
    List (Nat × List α) → Randomized (Sketch α cmp)
  | [] => .done s
  | (level, block) :: blocks =>
    (thin stride block).bind fun block =>
      (s.settle (level + shift) block).bind fun s => s.absorbBlocks stride shift blocks

/-- Takes in the contents of another sketch, whose block size must be this one's
or a greater power of two. -/
def absorb (s other : Sketch α cmp) : Randomized (Sketch α cmp) :=
  let stride := other.k / s.k
  let total := s.n + other.n
  .notes (if 1 < stride then [.downsampling other.k s.k] else [])
    ((s.updateAll other.buffer.toList).bind fun s =>
      (s.absorbBlocks stride stride.log2 (Levels.occupied other.levels)).bind fun s =>
        .done { s with n := total })

/-- Brings a sketch to a smaller block size. -/
def shrink (s : Sketch α cmp) (k : Nat) : Randomized (Sketch α cmp) :=
  { s with k, n := 0, buffer := #[], levels := [] }.absorb s

/-- Takes the extremes of another sketch into account. -/
def meetExtremes (s other : Sketch α cmp) : Sketch α cmp :=
  { s with
    least := other.least.elim s.least (lesser cmp s.least)
    greatest := other.greatest.elim s.greatest (greater cmp s.greatest) }

/-- One of the block sizes is the other one times a power of two. -/
def RelatedSizes (k₁ k₂ : Nat) : Prop :=
  max k₁ k₂ % min k₁ k₂ = 0 ∧ (max k₁ k₂ / min k₁ k₂).isPowerOfTwo

instance (k₁ k₂ : Nat) : Decidable (RelatedSizes k₁ k₂) :=
  inferInstanceAs (Decidable (_ ∧ _))

/-- The sketch of both streams.  An empty sketch adds nothing, not even its block
size. -/
def merge (s other : Sketch α cmp) : Except Fault (Randomized (Sketch α cmp)) :=
  if other.isEmpty then .ok (.done s)
  else if RelatedSizes s.k other.k then
    let reduced := if other.k < s.k then s.shrink other.k else .done s
    .ok (reduced.bind fun s =>
      (s.absorb other).bind fun merged => .done (merged.meetExtremes other))
  else .error (.unrelatedSizes s.k other.k)

end QuantileSketch.Sketch
