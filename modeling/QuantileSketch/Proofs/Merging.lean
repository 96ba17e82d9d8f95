/-
Merging item by item.

A merge looks at the heads of two lists and takes one of them, until a list runs out, and
then takes what is left.  Blocks are merged in this way when a level is compacted, and runs
of weighted items when a view is sorted:

* `mergeOnto` — the loop, which adds to what is there already;
* `mergeItems`, `mergeWeighted` — the merge of blocks and that of runs;
* `mergeOnto_eq` — the loop comes to the merge of lists;
* `mergeBy_map_item` — weights make no difference to the order of items;
* `merges_stable` — both are the stable sort of the two lists one after the other.

Design notes: the loop takes from the right only what is strictly below the head on the left.
For a lawful comparison this is the opposite of `isLE`, which `mergeBy` asks for the other
way round.
-/
import QuantileSketch.Proofs.OrderStatistics

namespace QuantileSketch

variable {α β : Type} {cmp : α → α → Ordering}

/-! ### The loop -/

/-- Takes the heads of two lists in turn, that of the right one only if it is `below` that of
the left one, and adds them to `out`.  When a list runs out, the rest is added. -/
def mergeOnto (below : β → β → Bool) (out : List β) : List β → List β → List β
  | x :: left, y :: right =>
    if below y x then mergeOnto below (out ++ [y]) (x :: left) right
    else mergeOnto below (out ++ [x]) left (y :: right)
  | left, right => out ++ left ++ right
termination_by left right => left.length + right.length

/-- The merge of two blocks. -/
def mergeItems (cmp : α → α → Ordering) (left right : List α) : List α :=
  mergeOnto (fun x y => (cmp x y).isLT) [] left right

/-- The merge of two runs of weighted items, added to what is merged already. -/
def mergeWeighted (cmp : α → α → Ordering) (out left right : List (Weighted α)) :
    List (Weighted α) :=
  mergeOnto (fun x y => (cmp x.item y.item).isLT) out left right

/-- The loop adds the merge of both lists. -/
theorem mergeOnto_eq {below le : β → β → Bool} (h : ∀ x y, below y x = !le x y)
    (out left right : List β) :
    mergeOnto below out left right = out ++ left.merge right le := by
  fun_induction mergeOnto below out left right with
  | case1 out x left y right hbelow ih =>
    have hle : ¬ le x y = true := by simpa [h] using hbelow
    rw [ih, List.cons_merge_cons_neg _ _ _ hle, List.append_assoc, List.singleton_append]
  | case2 out x left y right hbelow ih =>
    have hle : le x y = true := by simpa [h] using hbelow
    rw [ih, List.cons_merge_cons_pos _ _ _ hle, List.append_assoc, List.singleton_append]
  | case3 out left right hempty =>
    cases left with
    | nil => rw [List.nil_merge, List.append_nil]
    | cons x left =>
      cases right with
      | nil => rw [List.merge_right, List.append_nil]
      | cons y right => exact (hempty x left y right rfl rfl).elim

/-- Of two items either the right one is strictly below, or the left one may come first. -/
theorem isLT_eq_not_isLE [Std.OrientedCmp cmp] (x y : α) : (cmp y x).isLT = !(cmp x y).isLE := by
  have hswap : cmp y x = (cmp x y).swap := Std.OrientedCmp.eq_swap
  rw [hswap]
  cases cmp x y <;> rfl

theorem mergeItems_eq [Std.OrientedCmp cmp] (left right : List α) :
    mergeItems cmp left right = mergeBy cmp left right :=
  mergeOnto_eq isLT_eq_not_isLE [] left right

theorem mergeWeighted_eq [Std.TransCmp cmp] (out left right : List (Weighted α)) :
    mergeWeighted cmp out left right = out ++ mergeBy (byItem cmp) left right :=
  mergeOnto_eq (@isLT_eq_not_isLE _ (byItem cmp) _) out left right

/-! ### Weights -/

/-- The items of merged runs are the merged items. -/
theorem mergeBy_map_item (cmp : α → α → Ordering) (left right : List (Weighted α)) :
    (mergeBy (byItem cmp) left right).map Weighted.item
      = mergeBy cmp (left.map Weighted.item) (right.map Weighted.item) :=
  List.map_merge fun _ _ _ _ => rfl

/-- **Both merges are the same stable merge.**  Merging two blocks in order gives the stable
sort of the two, with the ties from the left block before those from the right one.  Merging
runs of the same items, whatever their weights, leaves what is there already and adds these
items in the same order; each weighted item that is added is one of the two runs, as often as
it is there, and stands where the stable sort of the runs has it. -/
theorem merges_stable [Std.TransCmp cmp] {left right : List α} (hleft : Sorted cmp left)
    (hright : Sorted cmp right) :
    mergeItems cmp left right = mergeBy cmp left right
      ∧ mergeItems cmp left right = sortBy cmp (left ++ right)
      ∧ (∀ a, ties cmp a (mergeItems cmp left right) = ties cmp a left ++ ties cmp a right)
      ∧ ∀ out runLeft runRight : List (Weighted α),
          runLeft.map Weighted.item = left → runRight.map Weighted.item = right →
          ∃ merged, mergeWeighted cmp out runLeft runRight = out ++ merged
            ∧ merged.map Weighted.item = mergeItems cmp left right
            ∧ merged = sortBy (byItem cmp) (runLeft ++ runRight)
            ∧ merged.Perm (runLeft ++ runRight)
            ∧ StablySorts (byItem cmp) (runLeft ++ runRight) merged := by
  rw [mergeItems_eq]
  refine ⟨rfl, mergeBy_eq_sortBy hleft hright, ties_mergeBy hleft hright, ?_⟩
  rintro out runLeft runRight rfl rfl
  have hsort : mergeBy (byItem cmp) runLeft runRight = sortBy (byItem cmp) (runLeft ++ runRight) :=
    mergeBy_eq_sortBy (List.pairwise_map.mp hleft) (List.pairwise_map.mp hright)
  refine ⟨_, mergeWeighted_eq out runLeft runRight, mergeBy_map_item cmp runLeft runRight, hsort,
    mergeBy_perm _ runLeft runRight, ?_⟩
  rw [hsort]
  exact sortBy_stablySorts _

/-- Blocks of numbers that are compared by their tens, the first with weights. -/
def tensLeft : List (Weighted ℕ) := [⟨11, 2⟩, ⟨12, 4⟩, ⟨30, 2⟩]

/-- The second block. -/
def tensRight : List (Weighted ℕ) := [⟨10, 8⟩, ⟨13, 1⟩, ⟨21, 8⟩, ⟨31, 1⟩]

theorem merges_stable_ofTens :
    (Sorted (compareOn (· / 10)) [11, 12, 30] ∧ Sorted (compareOn (· / 10)) [10, 13, 21, 31]
      ∧ tensLeft.map Weighted.item = [11, 12, 30]
      ∧ tensRight.map Weighted.item = [10, 13, 21, 31])
      ∧ mergeItems (compareOn (· / 10)) [11, 12, 30] [10, 13, 21, 31]
          = [11, 12, 10, 13, 21, 30, 31]
      ∧ ties (compareOn (· / 10)) 10 [11, 12, 10, 13, 21, 30, 31] = [11, 12] ++ [10, 13]
      ∧ ∃ merged, mergeWeighted (compareOn (· / 10)) [⟨5, 1⟩] tensLeft tensRight
            = ⟨5, 1⟩ :: merged
          ∧ merged.map Weighted.item = [11, 12, 10, 13, 21, 30, 31]
          ∧ merged.Perm (tensLeft ++ tensRight) := by
  have hleft : Sorted (compareOn (· / 10)) [11, 12, 30] := by
    simp only [Sorted]
    decide
  have hright : Sorted (compareOn (· / 10)) [10, 13, 21, 31] := by
    simp only [Sorted]
    decide
  have hmerge : mergeItems (compareOn (· / 10)) [11, 12, 30] [10, 13, 21, 31]
      = [11, 12, 10, 13, 21, 30, 31] := by
    simp [mergeItems, mergeOnto, compareOn, compare, compareOfLessAndEq]
  obtain ⟨-, -, hties, hruns⟩ := merges_stable hleft hright
  obtain ⟨merged, hout, hitems, -, hperm, -⟩ := hruns [⟨5, 1⟩] tensLeft tensRight rfl rfl
  have hten := hties 10
  rw [hmerge] at hitems hten
  exact ⟨⟨hleft, hright, rfl, rfl⟩, hmerge, hten, merged, hout, hitems, hperm⟩

end QuantileSketch
