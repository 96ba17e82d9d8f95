/-
Scientific decimal notation with a fixed number of digits.

One digit, a point, `precision` more digits and the power of ten, rounded to
nearest with ties to even from the exact value of the number.
-/
import QuantileSketch.Decimal.Parts

namespace QuantileSketch.Decimal

/-- The quotient rounded to nearest, a tie going to the even neighbour. -/
def roundedQuotient (num den : Nat) : Nat :=
  let q := num / den
  let twice := 2 * (num % den)
  if twice < den ∨ (twice = den ∧ q % 2 = 0) then q else q + 1

/-- The number in units of `10 ^ place`, rounded. -/
def Parts.inUnits (p : Parts) (place : Int) : Nat :=
  roundedQuotient ((p.significand <<< p.exponent.toNat) * Nat.pow 10 (-place).toNat)
    ((1 <<< (-p.exponent).toNat) * Nat.pow 10 place.toNat)

/-- The number is at least a power of ten. -/
def Parts.reaches (p : Parts) (power : Int) : Bool :=
  (1 <<< (-p.exponent).toNat) * Nat.pow 10 power.toNat ≤
    (p.significand <<< p.exponent.toNat) * Nat.pow 10 (-power).toNat

/-- The greatest power of ten that a number reaches; zero reaches none.  No finite
number reaches `10 ^ 309`, and none but zero is below `10 ^ (-324)`. -/
def Parts.leadingPower? (p : Parts) : Option Int :=
  ((List.range 634).map fun (i : Nat) => (309 - i : Int)).find? p.reaches

/-- The digits and the power of ten of a number: `precision + 1` digits from the
leading power on, or, if they round up to the next power, that power's. -/
def Parts.scientific (precision : Nat) (p : Parts) : Nat × Int :=
  match p.leadingPower? with
  | none => (0, 0)
  | some power =>
    let digits := p.inUnits (power - precision)
    if digits < Nat.pow 10 (precision + 1) then (digits, power)
    else (Nat.pow 10 precision, power + 1)

/-- Writes the digits of a number in scientific notation. -/
def scientificText (precision : Nat) (digits : Nat) (power : Int) : String :=
  let ds := Nat.toDigits 10 digits
  let padded := List.replicate (precision + 1 - ds.length) '0' ++ ds
  let fraction := if precision = 0 then [] else '.' :: padded.drop 1
  String.ofList (padded.take 1 ++ fraction ++ ['e']) ++ toString power

/-- Writes a number in scientific notation with `precision` digits after the
point. -/
def scientific (precision : Nat) (x : Float) : String :=
  match Number.ofFloat x with
  | .nan => "NaN"
  | .infinite negative => if negative then "-inf" else "inf"
  | .finite p =>
    let (digits, power) := p.scientific precision
    (if p.negative then "-" else "") ++ scientificText precision digits power

end QuantileSketch.Decimal
