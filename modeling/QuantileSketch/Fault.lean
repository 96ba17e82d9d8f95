/-
The faults of a sketch and how they are reported.

A fault is a cause with the figures that belong to it; its wording is in
`Fault.report`, where every fault has its kind, message, details and cause.
-/
import QuantileSketch.Decimal.Positional
import QuantileSketch.Image.Fault
import QuantileSketch.Layout
import QuantileSketch.Report

namespace QuantileSketch

/-- What can go wrong. -/
inductive Fault
  /-- No sketch has this block size. -/
  | inadmissibleSize (k : Nat)
  /-- No rank error is known for this block size. -/
  | sizeTooSmall (k : Nat)
  /-- A rank is not between zero and one. -/
  | rankOutOfRange (rank : Float)
  /-- Ranks are not strictly increasing. -/
  | ranksNotIncreasing
  /-- Fewer than two evenly spaced quantiles were asked for. -/
  | tooFewQuantiles (count : Nat)
  /-- A split point is not above the one before it. -/
  | splitPointsNotIncreasing (index : Nat)
  /-- The block sizes of two sketches are not related by a power of two. -/
  | unrelatedSizes (own other : Nat)
  /-- The occupancy pattern is not the one for the count. -/
  | occupancyMismatch (k n pattern : Nat)
  /-- The buffer does not hold the number of items that the count calls for. -/
  | bufferMismatch (k n held : Nat)
  /-- A level does not hold the number of items that the count calls for. -/
  | levelMismatch (k n level held expected : Nat)
  /-- The items held are not as many as the snapshot says. -/
  | retainedMismatch (held expected : Nat)
  /-- The weights of the items held do not add up to the count. -/
  | weightMismatch (total n : Nat)
  /-- The counts of a histogram do not add up to the count. -/
  | histogramMismatch (total n : Nat)
  /-- Bytes are not the image of a sketch. -/
  | image (fault : ImageFault)
  deriving DecidableEq

/-- The wording for a block size that no sketch has. -/
def inadmissibleSizeMessage (k : Nat) : String :=
  s!"k must be a power of two in [{minSize}, {maxSize}], got {k}"

/-- A number in base two, after the mark of the base. -/
def binaryText (n : Nat) : String := "0b" ++ String.ofList (Nat.toDigits 2 n)

/-- Eight binary digits, after the mark of the base. -/
def byteText (b : UInt8) : String :=
  let digits := Nat.toDigits 2 b.toNat
  "0b" ++ String.ofList (List.replicate (8 - digits.length) '0' ++ digits)

/-- What is wrong with an image, in words. -/
def ImageFault.message : ImageFault → String
  | truncated part => s!"insufficient data while reading {part.name}"
  | foreignFamily expected actual =>
    s!"invalid family: expected {expected} (QUANTILES), got {actual}"
  | foreignVersion expected actual =>
    s!"unsupported serial version: expected {expected}, got {actual}"
  | unknownFlags flags => "invalid flags: " ++ byteText flags
  | notCompact => "only compact images can be deserialized"
  | preambleLength expected actual =>
    s!"invalid preamble longs: expected {expected}, got {actual}"
  | inadmissibleSize k => inadmissibleSizeMessage k
  | nothingCounted => "non-empty image must have n > 0"
  | malformedText _ => "invalid utf-8 string"
  | unsortedLevel level => s!"level {level} is not sorted"

/-- What lies behind a fault of an image. -/
def ImageFault.cause : ImageFault → Option Cause
  | malformedText fault => some (.root fault.message)
  | _ => none

namespace Fault

/-- The kind of a fault. -/
def kind : Fault → FaultKind
  | inadmissibleSize _ | sizeTooSmall _ | rankOutOfRange _ | ranksNotIncreasing
  | tooFewQuantiles _ | splitPointsNotIncreasing _ | unrelatedSizes _ _ => .invalidArgument
  | occupancyMismatch _ _ _ | bufferMismatch _ _ _ | levelMismatch _ _ _ _ _
  | retainedMismatch _ _ | weightMismatch _ _ | histogramMismatch _ _ => .inconsistentState
  | image _ => .malformedImage

/-- What is wrong, in words. -/
def message : Fault → String
  | inadmissibleSize k => inadmissibleSizeMessage k
  | sizeTooSmall k => s!"k must be greater than one, got {k}"
  | rankOutOfRange _ => "rank must be in [0.0, 1.0]"
  | ranksNotIncreasing => "ranks must be unique and monotonically increasing"
  | tooFewQuantiles count =>
    s!"number of evenly spaced quantiles must be at least 2, got {count}"
  | splitPointsNotIncreasing _ => "split points must be unique and monotonically increasing"
  | unrelatedSizes own other => s!"cannot merge sketches with k = {own} and k = {other}"
  | occupancyMismatch k n pattern =>
    "level occupancy " ++ binaryText pattern ++ " does not match n / 2k = "
      ++ binaryText (occupancy k n)
  | bufferMismatch k n held =>
    s!"base buffer holds {held} items, expected n mod 2k = {bufferCount k n}"
  | levelMismatch _ _ level held expected =>
    s!"level {level} holds {held} items, expected {expected}"
  | retainedMismatch held expected => s!"flattened {held} items, expected {expected}"
  | weightMismatch total n => s!"total retained weight {total} does not match n = {n}"
  | histogramMismatch total n => s!"histogram total {total} does not match n = {n}"
  | image fault => fault.message

/-- The figures that go with a fault. -/
def details : Fault → List (String × String)
  | rankOutOfRange rank => [("rank", Decimal.positional rank)]
  | splitPointsNotIncreasing index => [("index", toString index)]
  | occupancyMismatch k n _ | bufferMismatch k n _ | levelMismatch k n _ _ _ =>
    [("k", toString k), ("n", toString n)]
  | _ => []

/-- What lies behind a fault. -/
def cause : Fault → Option Cause
  | image fault => fault.cause
  | _ => none

/-- The report of a fault. -/
def report (fault : Fault) : Report where
  kind := fault.kind
  message := fault.message
  details := fault.details
  cause := fault.cause

end Fault

end QuantileSketch
