/-
The parts of a 64-bit floating-point number.

A finite number is `significand · 2 ^ exponent` with its sign; the decimal
notations work on these integers alone, so they never round twice.
-/

namespace QuantileSketch.Decimal

/-- A finite number by its sign, its significand and the power of two that the
significand counts. -/
structure Parts where
  negative : Bool
  significand : Nat
  exponent : Int
  deriving DecidableEq

/-- What a floating-point number can be. -/
inductive Number
  | nan
  | infinite (negative : Bool)
  | finite (parts : Parts)
  deriving DecidableEq

/-- The number that 64 bits encode: a sign, 11 bits of exponent and 52 bits of
fraction, to which a leading one is added unless the exponent bits are zero. -/
def Number.ofBits (bits : UInt64) : Number :=
  let negative := decide (1 <<< 63 ≤ bits.toNat)
  let field : Nat := (bits.toNat >>> 52) % (1 <<< 11)
  let fraction : Nat := bits.toNat % (1 <<< 52)
  if field = 2047 then
    if fraction = 0 then .infinite negative else .nan
  else if field = 0 then .finite ⟨negative, fraction, -1074⟩
  else .finite ⟨negative, (1 <<< 52) + fraction, (field : Int) - 1075⟩

/-- The number that a `Float` stands for. -/
def Number.ofFloat (x : Float) : Number := .ofBits x.toBits

/-- Half the distance to the next smaller number, in quarters of the last place.
Below a power of two the numbers lie twice as dense. -/
def Parts.gapBelow (p : Parts) : Nat :=
  if p.significand = 1 <<< 52 ∧ -1074 < p.exponent then 1 else 2

/-- Half the distance to the next greater number, in quarters of the last place. -/
def Parts.gapAbove (_ : Parts) : Nat := 2

end QuantileSketch.Decimal
