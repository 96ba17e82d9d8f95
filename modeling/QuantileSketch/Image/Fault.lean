/-
The ways in which bytes fail to be the image of a sketch.
-/
import QuantileSketch.Image.Utf8

namespace QuantileSketch

/-- A part of an image that is read at one go. -/
inductive ImagePart
  | preambleLongs
  | serialVersion
  | family
  | flags
  | blockSize
  | unused
  | count
  | items
  | integer
  | binary64
  | binary32
  | textLength
  | textBytes
  deriving DecidableEq

def ImagePart.name : ImagePart → String
  | preambleLongs => "preamble_longs"
  | serialVersion => "serial_version"
  | family => "family_id"
  | flags => "flags"
  | blockSize => "k"
  | unused => "unused"
  | count => "n"
  | items => "items"
  | integer => "i64"
  | binary64 => "f64"
  | binary32 => "f32"
  | textLength => "string_len"
  | textBytes => "string_bytes"

/-- Why bytes are not the image of a sketch. -/
inductive ImageFault
  /-- The bytes end within a part. -/
  | truncated (part : ImagePart)
  /-- The image is of another family of sketches. -/
  | foreignFamily (expected actual : UInt8)
  /-- The image is of another version of the format. -/
  | foreignVersion (expected actual : UInt8)
  /-- A flag is set that has no meaning. -/
  | unknownFlags (flags : UInt8)
  /-- The image is not compact. -/
  | notCompact
  /-- The preamble does not have the length that the flags call for. -/
  | preambleLength (expected actual : UInt8)
  /-- No sketch has this block size. -/
  | inadmissibleSize (k : Nat)
  /-- The image is not flagged as empty and counts no items. -/
  | nothingCounted
  /-- The bytes of a text are not UTF-8. -/
  | malformedText (fault : Utf8.Fault)
  /-- The items of a level are not in order. -/
  | unsortedLevel (level : Nat)
  deriving DecidableEq

end QuantileSketch
