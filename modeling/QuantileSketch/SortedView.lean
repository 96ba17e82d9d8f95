/-
Sorted views: the items of a snapshot in order, with running weights.

A view stands for the stream in which every item is repeated as often as its
weight says.  Where a position of that stream falls is found by binary search in
the running weights.

* `SortedView.ofSnapshot?` — the view of a snapshot that is consistent;
* `locate` — the place where running weights pass a position;
* `SortedView.quantile` — the item at a rank.
-/
import QuantileSketch.Rank
import QuantileSketch.Snapshot
import QuantileSketch.SortedView.Runs

namespace QuantileSketch

variable {α : Type}

/-- The items of a snapshot in order. -/
structure SortedView (α : Type) where
  /-- The number of items in the stream. -/
  n : Nat
  /-- The items held, in order. -/
  items : Array α
  /-- The weight of all items before each item, and last the weight of all. -/
  cumulative : Array Nat
  /-- There is one more running weight than there are items. -/
  size_cumulative : cumulative.size = items.size + 1

/-- Searches `cumulative` between `lo` and `hi` for the place that `pos` falls
in, halving the distance.  The entry at `lo` stays at or below `pos`, and the one
at `hi` above it. -/
def locateBetween (cumulative : Array Nat) (pos lo hi : Nat) (h : hi < cumulative.size) : Nat :=
  if _ : lo + 1 < hi then
    let mid := lo + (hi - lo) / 2
    if cumulative[mid] ≤ pos then locateBetween cumulative pos mid hi h
    else locateBetween cumulative pos lo mid (by omega)
  else lo
termination_by hi - lo

/-- The place that `pos` falls in: its entry is at most `pos`, and the next entry
is above it. -/
def locate (cumulative : Array Nat) (pos : Nat) : Nat :=
  if h : 0 < cumulative.size then
    locateBetween cumulative pos 0 (cumulative.size - 1) (Nat.sub_lt h Nat.one_pos)
  else 0

/-- The items of a snapshot in order with their weights, tied items in the order
of the snapshot. -/
def Snapshot.sorted (cmp : α → α → Ordering) (s : Snapshot α) : List (Weighted α) :=
  sortBlocks (fun x y => cmp x.item y.item) s.k s.weightedBlocks.length s.weighted

namespace SortedView

/-- The view of a stream of `n` items, given the items in order. -/
def ofSorted (n : Nat) (sorted : List (Weighted α)) : SortedView α where
  n := n
  items := (sorted.map Weighted.item).toArray
  cumulative := (sorted.scanl (fun total x => total + x.weight) 0).toArray
  size_cumulative := by simp

/-- The view of a snapshot, whose parts must not contradict each other. -/
def ofSnapshot? (cmp : α → α → Ordering) (s : Snapshot α) : Except Fault (SortedView α) := do
  s.check
  let held := s.weighted.length
  if held ≠ s.retained then
    throw (.retainedMismatch held s.retained)
  let sorted := s.sorted cmp
  let total := sorted.foldl (fun total x => total + x.weight) 0
  if total ≠ s.n then
    throw (.weightMismatch total s.n)
  return ofSorted s.n sorted

/-- The view stands for an empty stream. -/
def isEmpty (v : SortedView α) : Bool := v.n = 0

/-- The item at a position of the stream. -/
def itemAt (v : SortedView α) (pos : Nat) : Option α := v.items[locate v.cumulative pos]?

/-- The item at a rank; an empty stream has none. -/
def quantile (v : SortedView α) (rank : Float) : Except Fault (Option α) := do
  checkRank rank
  return if v.isEmpty then none else v.itemAt (position rank v.n)

end SortedView

end QuantileSketch
