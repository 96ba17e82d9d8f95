/-
Integer items: 64-bit two's complement words.

Besides their natural order, `compare`, integers can be compared by decade (all
of `10 … 19` are tied, as are all of `-10 … -1`) or by distance from zero.  In
images they take eight bytes.
-/
import QuantileSketch.Image.Bytes

namespace QuantileSketch

/-- Compares by the number of whole tens below the value. -/
def byDecade : Int64 → Int64 → Ordering :=
  compareOn fun x => x.toInt / 10

/-- Compares by distance from zero. -/
def byAbsoluteValue : Int64 → Int64 → Ordering :=
  compareOn fun x => x.toInt.natAbs

instance : Std.TransCmp byDecade :=
  inferInstanceAs (Std.TransCmp (compareOn _))

instance : Std.TransCmp byAbsoluteValue :=
  inferInstanceAs (Std.TransCmp (compareOn _))

namespace Image

instance : ItemCodec Int64 where
  size _ := 8
  encode x := littleEndian 8 x.toUInt64.toNat
  decode := return (UInt64.ofNat (← readNumber .integer 8)).toInt64

end Image

end QuantileSketch
