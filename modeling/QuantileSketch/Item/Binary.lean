/-
Floating-point items, as bit patterns.

A sketch only copies and compares its items, so a floating-point item is kept as
its IEEE 754 interchange encoding, and a NaN keeps its sign and payload.  This is
also its form in images.

* `Binary64.totalOrder`, `Binary32.totalOrder` — the total order of IEEE 754:
  negative NaNs, the negative numbers, `-0`, `+0`, the positive numbers, positive
  NaNs;
* `Binary64.byMagnitude`, `Binary32.byMagnitude` — the same after clearing the
  sign.

Design notes: `Float` is not used here because it identifies all NaNs.
-/
import QuantileSketch.Image.Bytes

namespace QuantileSketch

/-- The place of a bit pattern in the total order, given its sign and the other
bits as a number: the greater these, the farther it is from zero. -/
def signedPlace (negative : Bool) (magnitude : Nat) : Int :=
  if negative then -1 - (magnitude : Int) else magnitude

/-- A 64-bit floating-point item. -/
structure Binary64 where
  bits : UInt64
  deriving DecidableEq, Inhabited

namespace Binary64

/-- All bits but the sign, as a number. -/
def magnitude (x : Binary64) : Nat := x.bits.toNat % (1 <<< 63)

/-- The sign bit. -/
def isNegative (x : Binary64) : Bool := 1 <<< 63 ≤ x.bits.toNat

/-- The total order on 64-bit floating-point items. -/
def totalOrder : Binary64 → Binary64 → Ordering :=
  compareOn fun x => signedPlace x.isNegative x.magnitude

/-- The total order of the items without their signs. -/
def byMagnitude : Binary64 → Binary64 → Ordering :=
  compareOn magnitude

instance : Std.TransCmp totalOrder :=
  inferInstanceAs (Std.TransCmp (compareOn _))

instance : Std.TransCmp byMagnitude :=
  inferInstanceAs (Std.TransCmp (compareOn _))

end Binary64

/-- A 32-bit floating-point item. -/
structure Binary32 where
  bits : UInt32
  deriving DecidableEq, Inhabited

namespace Binary32

def magnitude (x : Binary32) : Nat := x.bits.toNat % (1 <<< 31)

def isNegative (x : Binary32) : Bool := 1 <<< 31 ≤ x.bits.toNat

/-- The total order on 32-bit floating-point items. -/
def totalOrder : Binary32 → Binary32 → Ordering :=
  compareOn fun x => signedPlace x.isNegative x.magnitude

def byMagnitude : Binary32 → Binary32 → Ordering :=
  compareOn magnitude

instance : Std.TransCmp totalOrder :=
  inferInstanceAs (Std.TransCmp (compareOn _))

instance : Std.TransCmp byMagnitude :=
  inferInstanceAs (Std.TransCmp (compareOn _))

end Binary32

namespace Image

instance : ItemCodec Binary64 where
  size _ := 8
  encode x := littleEndian 8 x.bits.toNat
  decode := return ⟨UInt64.ofNat (← readNumber .binary64 8)⟩

instance : ItemCodec Binary32 where
  size _ := 4
  encode x := littleEndian 4 x.bits.toNat
  decode := return ⟨UInt32.ofNat (← readNumber .binary32 4)⟩

end Image

end QuantileSketch
