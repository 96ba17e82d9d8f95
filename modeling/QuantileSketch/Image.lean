/-
Images of sketches in bytes.

An image is a preamble and, if the sketch has seen something, the number of
items, the least and the greatest item, the buffer and the blocks of the levels,
the lowest level first.  Which levels there are follows from the block size and
the number of items.

* `Sketch.encode` — the image of a sketch, its buffer in order of arrival or
  sorted;
* `Sketch.decode?` — the sketch of an image;
* `Sketch.encodedSize` — the size of an image.
-/
import QuantileSketch.Image.Preamble
import QuantileSketch.Sketch.Basic

namespace QuantileSketch

variable {α : Type} {cmp : α → α → Ordering} [Image.ItemCodec α]

namespace Image

/-- The size of the image of an empty sketch. -/
def emptySize : Nat := 8

/-- The size of what comes before the items. -/
def itemsStart : Nat := 16

/-- The least and the greatest item. -/
def encodeExtremes : Option α → Option α → List UInt8
  | some least, some greatest => ItemCodec.encode least ++ ItemCodec.encode greatest
  | _, _ => []

/-- Reads the block of a level, which must be in order; a level that is not
occupied has none. -/
def readLevel (cmp : α → α → Ordering) (k pattern level : Nat) : Reader (List α) := do
  if pattern.testBit level then
    let block ← readItems k
    let block := block.toList
    if inOrder cmp block then return block else throw (.unsortedLevel level)
  else return []

/-- Reads `count` levels of a pattern from `level` on, the lowest first. -/
def readLevels (cmp : α → α → Ordering) (k pattern : Nat) :
    (level count : Nat) → Reader (List (List α))
  | _, 0 => return []
  | level, count + 1 => do
    let block ← readLevel cmp k pattern level
    let levels ← readLevels cmp k pattern (level + 1) count
    return block :: levels

/-- Reads what an image holds of a sketch that has seen something.  An item takes
at least one byte, so there are at least as many bytes as items. -/
def readContents (cmp : α → α → Ordering) (k : Nat) : Reader (Sketch α cmp) := do
  let n ← readNumber .count 8
  if n = 0 then
    throw .nothingCounted
  if (← get).length < retainedCount k n then
    throw (.truncated .items)
  let least ← ItemCodec.decode
  let greatest ← ItemCodec.decode
  let buffer ← readItems (bufferCount k n)
  let pattern := occupancy k n
  let levels ← readLevels cmp k pattern 0 (levelCount pattern)
  return { k, n, buffer, levels, least := some least, greatest := some greatest }

/-- Reads the image of a sketch. -/
def readSketch (cmp : α → α → Ordering) : Reader (Sketch α cmp) := do
  let preamble ← readPreamble
  preamble.check
  if preamble.has Flag.empty then return Sketch.empty preamble.k
  readContents cmp preamble.k

end Image

namespace Sketch

/-- The buffer as it is written: in order of arrival, or sorted. -/
def writtenBuffer (ordered : Bool) (s : Sketch α cmp) : List α :=
  if ordered then sortBy cmp s.buffer.toList else s.buffer.toList

/-- The image of a sketch. -/
def encode (ordered : Bool) (s : Sketch α cmp) : List UInt8 :=
  let preamble := (Image.Preamble.ofSketch s.k s.isEmpty ordered).encode
  if s.isEmpty then preamble
  else
    preamble ++ Image.littleEndian 8 s.n ++ Image.encodeExtremes s.least s.greatest
      ++ Image.encodeItems (s.writtenBuffer ordered) ++ Image.encodeItems s.levels.flatten

/-- The size of the image of a sketch. -/
def encodedSize (s : Sketch α cmp) : Nat :=
  if s.isEmpty then Image.emptySize
  else
    Image.itemsStart + Image.sizeOfItems s.least.toList + Image.sizeOfItems s.greatest.toList
      + Image.sizeOfItems s.buffer.toList + Image.sizeOfItems s.levels.flatten

/-- The sketch of an image.  What comes after the image is ignored. -/
def decode? (bytes : List UInt8) : Except Fault (Sketch α cmp) :=
  match (Image.readSketch cmp).run bytes with
  | .ok (s, _) => .ok s
  | .error fault => .error (.image fault)

end Sketch

end QuantileSketch
