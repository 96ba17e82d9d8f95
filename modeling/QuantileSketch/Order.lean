/-
Orders on items, given as comparison functions.

A sketch knows its items only through a comparison `cmp : α → α → Ordering`.
Two items that compare equal are *tied*; ties keep their places throughout:

* `Sorted` — no item comes after a later one;
* `sortBy` — the stable sort of a list (`sorted_sortBy`, `sortBy_perm`);
* `mergeBy` — the stable merge of two lists, ties from the left one first
  (`Sorted.mergeBy`, `mergeBy_perm`);
* `inOrder` — the test for `Sorted` that looks at neighbours (`inOrder_iff`);
* `firstNotBelow` — where a list stops being strictly increasing.

Design notes: the laws of a comparison (`Std.TransCmp`) are never needed to run
a sketch, so they are hypotheses of theorems and not fields of a structure.
-/

namespace QuantileSketch

variable {α : Type}

/-- No item of the list comes after a later one. -/
def Sorted (cmp : α → α → Ordering) (xs : List α) : Prop :=
  xs.Pairwise fun x y => (cmp x y).isLE

/-- The stable sort of `xs`: items that are tied keep their order. -/
def sortBy (cmp : α → α → Ordering) (xs : List α) : List α :=
  xs.mergeSort fun x y => (cmp x y).isLE

/-- The stable merge of `xs` and `ys`: of two tied items the one from `xs` comes
first. -/
def mergeBy (cmp : α → α → Ordering) (xs ys : List α) : List α :=
  xs.merge ys fun x y => (cmp x y).isLE

/-- No item of the list comes after its successor. -/
def inOrder (cmp : α → α → Ordering) : List α → Bool
  | x :: y :: rest => (cmp x y).isLE && inOrder cmp (y :: rest)
  | _ => true

/-! ### Sorting -/

theorem sortBy_perm (cmp : α → α → Ordering) (xs : List α) : (sortBy cmp xs).Perm xs :=
  List.mergeSort_perm xs _

@[simp] theorem length_sortBy (cmp : α → α → Ordering) (xs : List α) :
    (sortBy cmp xs).length = xs.length :=
  (sortBy_perm cmp xs).length_eq

theorem isLE_total {cmp : α → α → Ordering} [Std.OrientedCmp cmp] (x y : α) :
    ((cmp x y).isLE || (cmp y x).isLE) = true := by
  have hswap : cmp y x = (cmp x y).swap := Std.OrientedCmp.eq_swap
  rw [hswap]
  cases cmp x y <;> rfl

theorem sorted_sortBy (cmp : α → α → Ordering) [Std.TransCmp cmp] (xs : List α) :
    Sorted cmp (sortBy cmp xs) :=
  List.pairwise_mergeSort (fun _ _ _ => Std.TransCmp.isLE_trans) isLE_total xs

theorem sortBy_of_sorted {cmp : α → α → Ordering} {xs : List α} (h : Sorted cmp xs) :
    sortBy cmp xs = xs :=
  List.mergeSort_of_pairwise h

/-! ### Merging -/

theorem mergeBy_perm (cmp : α → α → Ordering) (xs ys : List α) :
    (mergeBy cmp xs ys).Perm (xs ++ ys) :=
  List.merge_perm_append _

@[simp] theorem length_mergeBy (cmp : α → α → Ordering) (xs ys : List α) :
    (mergeBy cmp xs ys).length = xs.length + ys.length :=
  List.length_merge _ _ _

theorem Sorted.mergeBy {cmp : α → α → Ordering} [Std.TransCmp cmp] {xs ys : List α}
    (hx : Sorted cmp xs) (hy : Sorted cmp ys) : Sorted cmp (mergeBy cmp xs ys) :=
  List.pairwise_merge (fun _ _ _ => Std.TransCmp.isLE_trans) isLE_total xs ys hx hy

/-! ### Comparing neighbours -/

/-- For a lawful comparison it is enough to compare neighbours. -/
theorem inOrder_iff {cmp : α → α → Ordering} [Std.TransCmp cmp] {xs : List α} :
    inOrder cmp xs = true ↔ Sorted cmp xs := by
  induction xs with
  | nil => simp [inOrder, Sorted]
  | cons x xs ih =>
    cases xs with
    | nil => simp [inOrder, Sorted]
    | cons y rest =>
      rw [inOrder, Bool.and_eq_true, ih, Sorted, Sorted,
        List.pairwise_cons (a := x) (l := y :: rest)]
      constructor
      · rintro ⟨hxy, h⟩
        refine ⟨fun z hz => ?_, h⟩
        rcases List.mem_cons.mp hz with rfl | hz
        · exact hxy
        · exact Std.TransCmp.isLE_trans hxy ((List.pairwise_cons.mp h).1 z hz)
      · rintro ⟨hx, h⟩
        exact ⟨hx y List.mem_cons_self, h⟩

/-- The position, counted from `i` at the head of the list, of the first item
that is not strictly above its predecessor. -/
def firstNotBelow (cmp : α → α → Ordering) (i : Nat) : List α → Option Nat
  | x :: y :: rest =>
    if (cmp x y).isLT then firstNotBelow cmp (i + 1) (y :: rest) else some (i + 1)
  | _ => none

/-- The same items in the opposite order. -/
def reversed (cmp : α → α → Ordering) : α → α → Ordering := fun x y => cmp y x

instance {cmp : α → α → Ordering} [Std.TransCmp cmp] : Std.TransCmp (reversed cmp) :=
  inferInstanceAs (Std.TransCmp fun x y => cmp y x)

end QuantileSketch
