/-
Normalized ranks.

A rank is a fraction of the stream, from `0` for its start to `1` for its end.

* `checkRank`, `checkRanks` — what queries accept;
* `position` — the place in the sorted stream that a rank stands for;
* `evenRanks` — equally spaced ranks from `0` to `1`.
-/
import QuantileSketch.Fault

namespace QuantileSketch

/-- A rank lies between zero and one. -/
def checkRank (rank : Float) : Except Fault Unit :=
  if 0 ≤ rank ∧ rank ≤ 1 then .ok () else .error (.rankOutOfRange rank)

/-- Each rank is below the next one. -/
def ranksIncrease : List Float → Bool
  | r₁ :: r₂ :: rest => r₁ < r₂ && ranksIncrease (r₂ :: rest)
  | _ => true

/-- Ranks lie between zero and one and are strictly increasing. -/
def checkRanks (ranks : List Float) : Except Fault Unit := do
  ranks.forM checkRank
  if ranksIncrease ranks then .ok () else .error .ranksNotIncreasing

/-- The place, counted from zero, that a rank stands for in a sorted stream of
`n` items.  Rank `1` stands for the last place. -/
def position (rank : Float) (n : Nat) : Nat :=
  min (rank * Float.ofNat n).toUInt64.toNat (n - 1)

/-- `count` equally spaced ranks from `0` to `1`. -/
def evenRanks (count : Nat) : List Float :=
  (List.range count).map fun i => Float.ofNat i / Float.ofNat (count - 1)

end QuantileSketch
