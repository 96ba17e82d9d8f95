/-
Histograms over split points.

`m` split points make `m + 1` buckets: an item falls into the first bucket whose
split point is above it, or into the last bucket if there is none.

* `bucket` — the bucket of an item;
* `countEach`, `countSorted` — the weight in each bucket, item by item or, for
  items in order, by walking items and split points together;
* `Snapshot.histogram` — the weight in each bucket of a snapshot;
* `shares`, `cumulativeShares` — the same as fractions of the stream.

Design notes: blocks are in order, so they are always walked; the buffer is
sorted only if there are enough split points to repay it.
-/
import QuantileSketch.Snapshot

namespace QuantileSketch

variable {α : Type}

/-- The number of split points from which on the buffer is sorted. -/
def linearThreshold : Nat := 50

/-- How the buffer is counted for a number of split points. -/
def CountingStrategy.forSplitPoints (count : Nat) : CountingStrategy :=
  if count < linearThreshold then .bilinear else .linear

/-- Split points are strictly increasing. -/
def checkSplitPoints (cmp : α → α → Ordering) (splits : List α) : Except Fault Unit :=
  match firstNotBelow cmp 0 splits with
  | none => .ok ()
  | some i => .error (.splitPointsNotIncreasing i)

/-- The bucket that an item falls into. -/
def bucket (cmp : α → α → Ordering) (splits : List α) (x : α) : Nat :=
  splits.findIdx fun split => (cmp x split).isLT

/-- The weight in each bucket, each item counting for `weight`. -/
def countEach (cmp : α → α → Ordering) (weight : Nat) (splits xs : List α) : List Nat :=
  xs.foldl (fun counts x => counts.modify (bucket cmp splits x) (· + weight))
    (List.replicate (splits.length + 1) 0)

/-- The weight in each bucket, for items in order: those below the first split
point come first. -/
def countSorted (cmp : α → α → Ordering) (weight : Nat) : List α → List α → List Nat
  | [], xs => [weight * xs.length]
  | split :: splits, xs =>
    let (below, rest) := xs.span fun x => (cmp x split).isLT
    weight * below.length :: countSorted cmp weight splits rest

/-- Adds up counts bucket by bucket. -/
def addCounts (counts₁ counts₂ : List Nat) : List Nat := List.zipWith (· + ·) counts₁ counts₂

/-- The weight of the buffer in each bucket. -/
def CountingStrategy.count (cmp : α → α → Ordering) (splits buffer : List α) :
    CountingStrategy → List Nat
  | bilinear => countEach cmp 1 splits buffer
  | linear => countSorted cmp 1 splits (sortBy cmp buffer)

namespace Snapshot

/-- The weight in each bucket, without any checks. -/
def counts (cmp : α → α → Ordering) (strategy : CountingStrategy) (s : Snapshot α)
    (splits : List α) : List Nat :=
  (Levels.occupied s.levels).foldl
    (fun counts (level, block) =>
      addCounts counts (countSorted cmp (levelWeight level) splits block))
    (strategy.count cmp splits s.buffer)

/-- The split points and the snapshot are fit for a histogram. -/
def checkHistogram (cmp : α → α → Ordering) (s : Snapshot α) (splits : List α) :
    Except Fault Unit := do
  checkSplitPoints cmp splits
  s.check

/-- The weight in each bucket, the buffer counted by the strategy given. -/
def histogramBy (cmp : α → α → Ordering) (strategy : CountingStrategy) (s : Snapshot α)
    (splits : List α) : Except Fault (List Nat) := do
  s.checkHistogram cmp splits
  let counts := s.counts cmp strategy splits
  let total := counts.foldl (· + ·) 0
  if total ≠ s.n then
    throw (.histogramMismatch total s.n)
  return counts

/-- The weight in each bucket. -/
def histogram (cmp : α → α → Ordering) (s : Snapshot α) (splits : List α) :
    Except Fault (List Nat) :=
  s.histogramBy cmp (.forSplitPoints splits.length) splits

/-- What is noted when a histogram is asked for. -/
def histogramEvents (cmp : α → α → Ordering) (s : Snapshot α) (splits : List α) : List Event :=
  match s.checkHistogram cmp splits with
  | .ok () => [.histogram splits.length (.forSplitPoints splits.length)]
  | .error _ => []

end Snapshot

/-- A number of items as a fraction of the stream. -/
def share (n count : Nat) : Float := Float.ofNat count / Float.ofNat n

/-- The counts as fractions of the stream. -/
def shares (n : Nat) (counts : List Nat) : List Float := counts.map (share n)

/-- The counts up to and including each bucket. -/
def runningTotals (counts : List Nat) : List Nat := (counts.scanl (· + ·) 0).tail

/-- The counts up to and including each bucket as fractions of the stream. -/
def cumulativeShares (n : Nat) (counts : List Nat) : List Float :=
  (runningTotals counts).map (share n)

end QuantileSketch
