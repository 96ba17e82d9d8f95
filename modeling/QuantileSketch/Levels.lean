/-
The levels of a sketch: a binary counter whose digits are blocks of items.

A level is empty or holds a block of `k` items in order.  A block that arrives at
an occupied level is merged with the resident block, and a random half of the
result goes on to the next level, as a carry does:

* `everyNth` — the items that are left when a block is thinned out;
* `carry`, `carryAt` — adds a block at the lowest level, or at a given one;
* `pattern` — which levels are occupied, as a number.

Design notes: levels are a list, the lowest first, so a carry is recursion on the
list and reaches a new level exactly at its end.
-/
import QuantileSketch.Order
import QuantileSketch.Randomized

namespace QuantileSketch

variable {α : Type}

/-- The items at the positions `offset`, `offset + stride`, `offset + 2 · stride`
and so on. -/
def everyNth (stride offset : Nat) (xs : List α) : List α :=
  xs.zipIdx.filterMap fun (x, i) => if i % stride = offset then some x else none

/-- A random half of a block: every other item, from the first or the second. -/
def halve (block : List α) : Randomized (List α) :=
  .draw .bit fun offset => .done (everyNth 2 offset block)

namespace Levels

/-- Which levels are occupied: bit `i` is set exactly if level `i` is not empty. -/
def pattern : List (List α) → Nat
  | [] => 0
  | level :: levels => (if level.isEmpty then 0 else 1) + 2 * pattern levels

/-- A bit of the pattern tells whether its level holds something. -/
theorem testBit_pattern (levels : List (List α)) (i : Nat) :
    (pattern levels).testBit i = (levels[i]?.getD []).isEmpty.not := by
  induction levels generalizing i with
  | nil => simp [pattern]
  | cons level levels ih =>
    cases i with
    | zero => cases level <;> simp [pattern, Nat.testBit_zero]
    | succ i =>
      rw [pattern, Nat.testBit_succ, List.getElem?_cons_succ, ← ih]
      congr 1
      split <;> omega

/-- The number of items in all levels. -/
def size : List (List α) → Nat
  | [] => 0
  | level :: levels => level.length + size levels

/-- The occupied levels with their numbers, counted from `i`, lowest first. -/
def occupiedFrom (i : Nat) : List (List α) → List (Nat × List α)
  | [] => []
  | level :: levels =>
    if level.isEmpty then occupiedFrom (i + 1) levels
    else (i, level) :: occupiedFrom (i + 1) levels

/-- The occupied levels with their numbers, lowest first. -/
def occupied (levels : List (List α)) : List (Nat × List α) := occupiedFrom 0 levels

/-- The block at a level, if it is occupied. -/
def block? (levels : List (List α)) (i : Nat) : Option (List α) :=
  levels[i]?.filter fun level => !level.isEmpty

/-- Adds a block at the lowest level.  An occupied level gives its block to the
carry and is left empty. -/
def carry (cmp : α → α → Ordering) : List (List α) → List α → Randomized (List (List α))
  | [], block => .done [block]
  | resident :: levels, block =>
    if resident.isEmpty then .done (block :: levels)
    else
      (halve (mergeBy cmp resident block)).bind fun half =>
        (carry cmp levels half).bind fun levels => .done ([] :: levels)

/-- Adds a block at level `start`; levels that are missing below it are empty. -/
def carryAt (cmp : α → α → Ordering) :
    Nat → List (List α) → List α → Randomized (List (List α))
  | 0, levels, block => carry cmp levels block
  | start + 1, [], block =>
    (carryAt cmp start [] block).bind fun levels => .done ([] :: levels)
  | start + 1, level :: levels, block =>
    (carryAt cmp start levels block).bind fun levels => .done (level :: levels)

end Levels

end QuantileSketch
