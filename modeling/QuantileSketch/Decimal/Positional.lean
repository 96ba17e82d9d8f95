/-
Positional decimal notation with the fewest digits that read back.

* `shortest` — the digits: among the decimals that read back as the number,
  those on the coarsest decimal grid, and of these the nearest;
* `positional` — the text: no exponent, no decimal point on whole numbers.

Design notes: a grid is the multiples of `10 ^ place`.  The numbers that read
back form an interval about the number, so a grid has a point in it exactly if
one of the number's two neighbours on the grid is one.
-/
import QuantileSketch.Decimal.Parts

namespace QuantileSketch.Decimal

/-- A decimal number, `digits · 10 ^ place`. -/
structure Expansion where
  digits : Nat
  place : Int
  deriving DecidableEq

/-- Tests the two neighbours of a number on the grid of multiples of
`10 ^ place`, and gives the one that reads back as the number.  If both do, it
is the nearer one, and the greater one if they are equally near. -/
def Parts.onGrid (p : Parts) (place : Int) : Option Nat :=
  -- a point `c` of the grid is `c * grid`, and `v` quarters of the last place
  -- are `v * quarter`, both in the same unit
  let quarter := (1 <<< (p.exponent - 2).toNat) * Nat.pow 10 (-place).toNat
  let grid := (1 <<< (2 - p.exponent).toNat) * Nat.pow 10 place.toNat
  let value := 4 * p.significand
  let readsBack (c : Nat) : Bool :=
    if p.significand % 2 = 0 then
      (value - p.gapBelow) * quarter ≤ c * grid ∧ c * grid ≤ (value + p.gapAbove) * quarter
    else
      (value - p.gapBelow) * quarter < c * grid ∧ c * grid < (value + p.gapAbove) * quarter
  let below := value * quarter / grid
  let above := below + 1
  match readsBack below, readsBack above with
  | true, true =>
    if value * quarter - below * grid < above * grid - value * quarter then some below
    else some above
  | true, false => some below
  | false, true => some above
  | false, false => none

/-- The shortest decimal that reads back as the number.  No finite number
reaches `10 ^ 309`, and each is a multiple of `10 ^ (-1074)`. -/
def Parts.shortest (p : Parts) : Expansion :=
  if p.significand = 0 then ⟨0, 0⟩
  else
    ((List.range 1384).findSome? fun (i : Nat) =>
      let place : Int := 309 - i
      (p.onGrid place).map fun digits => ⟨digits, place⟩).getD ⟨0, 0⟩

/-- Writes a decimal without an exponent; a whole one has no decimal point, and a
proper fraction has a zero before it. -/
def Expansion.text (d : Expansion) : String :=
  let digits := Nat.toDigits 10 d.digits
  if 0 ≤ d.place then
    String.ofList (digits ++ List.replicate (if d.digits = 0 then 0 else d.place.toNat) '0')
  else
    let places := (-d.place).toNat
    let padded := List.replicate (places + 1 - digits.length) '0' ++ digits
    let whole := padded.length - places
    String.ofList (padded.take whole ++ '.' :: padded.drop whole)

/-- Writes a number in positional notation with the fewest digits that read
back. -/
def positional (x : Float) : String :=
  match Number.ofFloat x with
  | .nan => "NaN"
  | .infinite negative => if negative then "-inf" else "inf"
  | .finite p => (if p.negative then "-" else "") ++ p.shortest.text

end QuantileSketch.Decimal
