/-
Questions to a sketch.

* `Sketch.quantile`, `Sketch.quantiles`, `Sketch.evenQuantiles` — the items at
  ranks;
* `Sketch.histogram`, `Sketch.pmf`, `Sketch.cdf` — how items fall between split
  points;
* `Sketch.rank` — the fraction of the stream below an item.

Design notes: the ends of the stream are known, so ranks `0` and `1` are answered
exactly; everything else is read off a sorted view or counted from a snapshot.
-/
import QuantileSketch.Histogram
import QuantileSketch.SortedView

namespace QuantileSketch.Sketch

variable {α : Type} {cmp : α → α → Ordering}

/-- The items held, in order. -/
def sortedView (s : Sketch α cmp) : Except Fault (SortedView α) :=
  SortedView.ofSnapshot? cmp s.snapshot

/-- The item at a rank, given the sorted view: the least item at rank `0`, the
greatest at rank `1`. -/
def quantileIn (s : Sketch α cmp) (view : SortedView α) (rank : Float) :
    Except Fault (Option α) :=
  if rank == 0 then .ok s.least
  else if rank == 1 then .ok s.greatest
  else view.quantile rank

/-- The item at a rank; an empty stream has none. -/
def quantile (s : Sketch α cmp) (rank : Float) : Except Fault (Option α) := do
  checkRank rank
  if s.isEmpty then return none
  if rank == 0 then return s.least
  if rank == 1 then return s.greatest
  (← s.sortedView).quantile rank

/-- The items at strictly increasing ranks; an empty stream has none. -/
def quantiles (s : Sketch α cmp) (ranks : List Float) : Except Fault (Option (List α)) := do
  checkRanks ranks
  if s.isEmpty then return none
  let view ← s.sortedView
  let items ← ranks.mapM (s.quantileIn view)
  return some items.reduceOption

/-- The items at `count` equally spaced ranks from `0` to `1`. -/
def evenQuantiles (s : Sketch α cmp) (count : Nat) : Except Fault (Option (List α)) :=
  if count < 2 then .error (.tooFewQuantiles count) else s.quantiles (evenRanks count)

/-- The number of items of the stream in each bucket of the split points. -/
def histogram (s : Sketch α cmp) (splits : List α) : Except Fault (List Nat) :=
  s.snapshot.histogram cmp splits

/-- The counts of a histogram brought into another form; an empty stream has
none. -/
def normalized (form : Nat → List Nat → List Float) (s : Sketch α cmp) (splits : List α) :
    Except Fault (Option (List Float)) := do
  checkSplitPoints cmp splits
  if s.isEmpty then return none
  return some (form s.n (← s.histogram splits))

/-- The fraction of the stream in each bucket of the split points. -/
def pmf (s : Sketch α cmp) (splits : List α) : Except Fault (Option (List Float)) :=
  s.normalized shares splits

/-- The fraction of the stream up to the end of each bucket of the split
points. -/
def cdf (s : Sketch α cmp) (splits : List α) : Except Fault (Option (List Float)) :=
  s.normalized cumulativeShares splits

/-- The fraction of the stream below an item. -/
def rank (s : Sketch α cmp) (x : α) : Except Fault (Option Float) :=
  return (← s.cdf [x]).bind List.head?

/-- What is noted when a histogram is asked for. -/
def histogramEvents (s : Sketch α cmp) (splits : List α) : List Event :=
  s.snapshot.histogramEvents cmp splits

/-- What is noted when fractions of the stream are asked for: the same, but an
empty stream is not counted. -/
def distributionEvents (s : Sketch α cmp) (splits : List α) : List Event :=
  if s.isEmpty then [] else s.histogramEvents splits

end QuantileSketch.Sketch
