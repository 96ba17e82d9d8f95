/-
Where bytes stop being UTF-8.

Whether bytes are valid UTF-8 is decided by the standard library; this module
finds the place where they first are not.  A character is a leading byte and up
to three bytes that it calls for, each from a range that the leading byte fixes.

* `follow` — the ranges that a leading byte calls for;
* `firstFault` — the first sequence that is no character, either because a byte
  is out of range or because the bytes end.
-/

namespace QuantileSketch.Utf8

/-- A sequence of bytes that is no character. -/
inductive Fault
  /-- A byte cannot stand where it does; the `length` bytes before it in its
  sequence are at fault, or the byte itself if it begins one. -/
  | invalid (length index : Nat)
  /-- The bytes end within a sequence. -/
  | incomplete (index : Nat)
  deriving DecidableEq

/-- What is wrong, in words. -/
def Fault.message : Fault → String
  | .invalid length index => s!"invalid utf-8 sequence of {length} bytes from index {index}"
  | .incomplete index => s!"incomplete utf-8 byte sequence from index {index}"

/-- The range of a byte that follows a leading byte. -/
structure ByteRange where
  least : UInt8
  greatest : UInt8

/-- The byte lies in the range. -/
def ByteRange.contains (r : ByteRange) (b : UInt8) : Bool := r.least ≤ b && b ≤ r.greatest

/-- The range of a byte that nothing further restricts. -/
def anyTail : ByteRange := ⟨0x80, 0xbf⟩

/-- The ranges of the bytes that have to follow a leading byte, if it can lead a
character at all.  The first of them excludes overlong forms, surrogates and
code points above the last one. -/
def follow (lead : UInt8) : Option (List ByteRange) :=
  if lead < 0x80 then some []
  else if lead < 0xc2 then none
  else if lead < 0xe0 then some [anyTail]
  else if lead = 0xe0 then some [⟨0xa0, 0xbf⟩, anyTail]
  else if lead = 0xed then some [⟨0x80, 0x9f⟩, anyTail]
  else if lead < 0xf0 then some [anyTail, anyTail]
  else if lead = 0xf0 then some [⟨0x90, 0xbf⟩, anyTail, anyTail]
  else if lead < 0xf4 then some [anyTail, anyTail, anyTail]
  else if lead = 0xf4 then some [⟨0x80, 0x8f⟩, anyTail, anyTail]
  else none

/-- Scans for the first fault.  The current sequence starts at `start`, has taken
`length` bytes, and calls for bytes in the ranges given; when it calls for none,
the next byte leads a sequence of its own. -/
def scan (start length : Nat) : List ByteRange → List UInt8 → Fault
  | _, [] => .incomplete start
  | [], lead :: bytes =>
    match follow lead with
    | some ranges => scan (start + length) 1 ranges bytes
    | none => .invalid 1 (start + length)
  | range :: ranges, b :: bytes =>
    if range.contains b then scan start (length + 1) ranges bytes
    else .invalid length start

/-- The first fault of bytes that are not UTF-8. -/
def firstFault (bytes : List UInt8) : Fault := scan 0 0 [] bytes

end QuantileSketch.Utf8
