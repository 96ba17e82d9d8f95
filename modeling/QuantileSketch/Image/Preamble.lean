/-
The preamble of an image.

Eight bytes: the length of the preamble in units of eight bytes, the version of
the format, the family of sketches, the flags, the block size in two bytes and
two bytes that are not used.  The image of a sketch that has seen something goes
on with the number of items, in eight bytes.

* `Preamble.encode`, `readPreamble` — to and from bytes;
* `Preamble.check` — what an image of this library must say about itself.
-/
import QuantileSketch.Image.Bytes
import QuantileSketch.Layout

namespace QuantileSketch.Image

/-- The family of the sketches of this library. -/
def familyId : UInt8 := 8

/-- The version of the format. -/
def formatVersion : UInt8 := 3

namespace Flag

/-- The image is not to be changed in place. -/
def readOnly : UInt8 := 2

/-- The sketch has seen nothing. -/
def empty : UInt8 := 4

/-- The image has no gaps. -/
def compact : UInt8 := 8

/-- The buffer is in order. -/
def ordered : UInt8 := 16

/-- All flags that have a meaning. -/
def all : UInt8 := readOnly ||| empty ||| compact ||| ordered

end Flag

/-- What the first eight bytes of an image say. -/
structure Preamble where
  longs : UInt8
  version : UInt8
  family : UInt8
  flags : UInt8
  k : Nat

namespace Preamble

/-- A flag is set. -/
def has (p : Preamble) (flag : UInt8) : Bool := p.flags &&& flag ≠ 0

/-- The length of the preamble in units of eight bytes: there is a count after it
unless the sketch is empty. -/
def longsFor (isEmpty : Bool) : UInt8 := if isEmpty then 1 else 2

/-- The preamble of a sketch of block size `k`. -/
def ofSketch (k : Nat) (isEmpty isOrdered : Bool) : Preamble where
  longs := longsFor isEmpty
  version := formatVersion
  family := familyId
  flags :=
    Flag.compact ||| (if isEmpty then Flag.empty else 0) ||| (if isOrdered then Flag.ordered else 0)
  k := k

/-- The bytes of a preamble. -/
def encode (p : Preamble) : List UInt8 :=
  [p.longs, p.version, p.family, p.flags] ++ littleEndian 2 p.k ++ littleEndian 2 0

/-- A preamble is one of an image of this library. -/
def check (p : Preamble) : Except ImageFault Unit := do
  if p.family ≠ familyId then
    throw (.foreignFamily familyId p.family)
  if p.version ≠ formatVersion then
    throw (.foreignVersion formatVersion p.version)
  if p.flags &&& ~~~Flag.all ≠ 0 then
    throw (.unknownFlags p.flags)
  if ¬ p.has Flag.compact then
    throw .notCompact
  let longs := longsFor (p.has Flag.empty)
  if p.longs ≠ longs then
    throw (.preambleLength longs p.longs)
  if ¬ Admissible p.k then
    throw (.inadmissibleSize p.k)

end Preamble

/-- Reads one byte. -/
def readByte (part : ImagePart) : Reader UInt8 :=
  return UInt8.ofNat (← readNumber part 1)

/-- Reads a preamble. -/
def readPreamble : Reader Preamble := do
  let longs ← readByte .preambleLongs
  let version ← readByte .serialVersion
  let family ← readByte .family
  let flags ← readByte .flags
  let k ← readNumber .blockSize 2
  let _ ← readNumber .unused 2
  return { longs, version, family, flags, k }

end QuantileSketch.Image
