/-
The rank error that a block size guarantees.

With failure probability `0.01`, a rank error of `eps` takes blocks of
`sqrt (ln (1 / (eps · 0.01))) / eps` items in theory, and of three quarters of
that in practice.  The rank error of a block size is found by inverting this
relation numerically.

* `bisect` — a search that keeps a pair of values and moves one of them to a value
  between them, as a test decides, until the pair is narrow enough or nothing lies
  between;
* `rankError`, `rankError?` — the rank error of a block size.

Design notes: `place` numbers the values in their order, so a step that stays
strictly between the ends brings them closer, and the search comes to an end
whatever midpoint, test and tolerance it is given.
-/
import QuantileSketch.Fault
import QuantileSketch.Sketch.Basic

namespace QuantileSketch

/-- Narrows the pair `lo`, `hi`: as long as it is `wide` and its `midpoint` lies
strictly between, the midpoint replaces `lo` if it `covers` and `hi` if it does
not.  The answer is the last `lo`. -/
def bisect {β : Type} (place : β → Nat) (midpoint : β → β → β) (wide : β → β → Bool)
    (covers : β → Bool) (lo hi : β) : β :=
  if wide lo hi then
    if _ : place lo < place (midpoint lo hi) ∧ place (midpoint lo hi) < place hi then
      if covers (midpoint lo hi) then bisect place midpoint wide covers (midpoint lo hi) hi
      else bisect place midpoint wide covers lo (midpoint lo hi)
    else lo
  else lo
termination_by place hi - place lo

namespace RankError

/-- The probability with which the guarantee may fail. -/
def failure : Float := 0.01

/-- The factor by which the theory overstates block sizes. -/
def overstatement : Float := 4.0 / 3.0

/-- A rank error below all that are asked for. -/
def leastError : Float := 1e-16

/-- A rank error above all that are asked for. -/
def greatestError : Float := 1.0 - 1e-16

/-- The relative distance at which the search ends. -/
def tolerance : Float := 1e-15

/-- The block size that a rank error takes in theory. -/
def theoreticalSize (eps : Float) : Float :=
  1.0 / eps * (1.0 / (eps * failure)).log.sqrt

/-- The place of a positive finite number in the order of all of them. -/
def place (x : Float) : Nat := x.toBits.toNat

/-- The rank error that blocks of a theoretical size guarantee. -/
def ofTheoreticalSize (size : Float) : Float :=
  bisect place (fun lo hi => (lo + hi) / 2.0) (fun lo hi => tolerance ≤ (hi - lo) / lo)
    (fun eps => size ≤ theoreticalSize eps) leastError greatestError

end RankError

/-- The rank error that block size `k` guarantees. -/
def rankError (k : Nat) : Float :=
  RankError.ofTheoreticalSize (Float.ofNat k * RankError.overstatement)

/-- The rank error that block size `k` guarantees; `k` has to be at least two. -/
def rankError? (k : Nat) : Except Fault Float :=
  if k < 2 then .error (.sizeTooSmall k) else .ok (rankError k)

/-- The rank error of a sketch. -/
def Sketch.rankError {α : Type} {cmp : α → α → Ordering} (s : Sketch α cmp) : Float :=
  QuantileSketch.rankError s.k

end QuantileSketch
