/-
Sorting a list that begins with sorted blocks.

The blocks need no sorting; only what follows them does.  The list is then cut
into runs of the size of a block, and neighbouring runs are merged until one is
left.

* `runs` — cuts a list into runs of equal size;
* `mergePairs`, `mergeRuns` — merges neighbouring runs, once or until one is left;
* `sortBlocks` — the sort.

Design notes: merging keeps the order of tied items, and runs are merged with
their neighbours only, so the result is the stable sort of the whole list.
-/
import QuantileSketch.Order

namespace QuantileSketch

variable {α : Type}

/-- Cuts a list into runs of `size` items, the last of which may be shorter. -/
def runs (size : Nat) (xs : List α) : List (List α) :=
  if _ : 0 < size ∧ size < xs.length then xs.take size :: runs size (xs.drop size) else [xs]
termination_by xs.length
decreasing_by simp; omega

/-- Merges each run of even index with the next one. -/
def mergePairs (cmp : α → α → Ordering) : List (List α) → List (List α)
  | xs :: ys :: rest => mergeBy cmp xs ys :: mergePairs cmp rest
  | rest => rest

theorem length_mergePairs_le (cmp : α → α → Ordering) (rs : List (List α)) :
    (mergePairs cmp rs).length ≤ rs.length := by
  fun_induction mergePairs cmp rs with
  | case1 xs ys rest ih => simp; omega
  | case2 rest => exact Nat.le_refl _

/-- Merges neighbouring runs until one is left. -/
def mergeRuns (cmp : α → α → Ordering) : List (List α) → List α
  | [] => []
  | [xs] => xs
  | xs :: ys :: rest => mergeRuns cmp (mergeBy cmp xs ys :: mergePairs cmp rest)
termination_by rs => rs.length
decreasing_by
  have := length_mergePairs_le cmp rest
  simp; omega

/-- Sorts a list whose first `sorted` items are blocks of `size` items, each in
order. -/
def sortBlocks (cmp : α → α → Ordering) (size sorted : Nat) (xs : List α) : List α :=
  mergeRuns cmp (runs size (xs.take sorted ++ sortBy cmp (xs.drop sorted)))

end QuantileSketch
