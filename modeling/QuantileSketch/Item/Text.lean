/-
Text items.

The natural order of text, `compare`, is by code points, which is also the order
of the UTF-8 encodings byte by byte.  Text can also be compared by the length of
its encoding, or without regard to the case of the letters `A … Z`.

In images a text is the number of its bytes, in four bytes, and then its UTF-8
encoding.

* `byEncodedLength`, `ignoringAsciiCase` — the other two orders;
* `Image.textOfBytes`, `Image.bytesOfText` — a text and its encoding.
-/
import QuantileSketch.Image.Bytes

namespace QuantileSketch

/-- Compares by the number of bytes of the UTF-8 encoding. -/
def byEncodedLength : String → String → Ordering :=
  compareOn String.utf8ByteSize

/-- Replaces the letters `A … Z` by `a … z` and leaves all else. -/
def lowerAscii (s : String) : String := s.map Char.toLower

/-- Compares after `lowerAscii`. -/
def ignoringAsciiCase : String → String → Ordering :=
  compareOn lowerAscii

instance : Std.TransCmp byEncodedLength :=
  inferInstanceAs (Std.TransCmp (compareOn _))

instance : Std.TransCmp ignoringAsciiCase :=
  inferInstanceAs (Std.TransCmp (compareOn _))

namespace Image

/-- The text whose UTF-8 encoding is given. -/
def textOfBytes (bytes : List UInt8) : Except ImageFault String :=
  match String.fromUTF8? ⟨bytes.toArray⟩ with
  | some text => .ok text
  | none => .error (.malformedText (Utf8.firstFault bytes))

/-- The UTF-8 encoding of a text. -/
def bytesOfText (text : String) : List UInt8 := text.toUTF8.data.toList

instance : ItemCodec String where
  size text := 4 + text.utf8ByteSize
  encode text := littleEndian 4 text.utf8ByteSize ++ bytesOfText text
  decode := do
    let size ← readNumber .textLength 4
    textOfBytes (← readBytes .textBytes size)

end Image

end QuantileSketch
