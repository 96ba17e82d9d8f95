/-
Stable sorting, also of lists that begin with sorted blocks.

A list stably sorts another one (`StablySorts`) if it is in order and the items that are
tied with any given one stand in it as they do in the other.  There is only one such
list (`StablySorts.eq`), so two ways to sort agree as soon as both are stable.

* `sortBy_stablySorts` — the sort of a list is stable;
* `sortBy_append` — so to sort two lists together is to merge their sorts;
* `mergeRuns_eq` — and so is what is left when runs in order are merged pair by pair;
* `sortBlocks_eq` — which makes the sort of blocks that of the whole list.

Design notes: the ties of an item are a filter, so that stability is an equation between
lists and no positions are followed through a merge.
-/
import Mathlib.Data.List.Basic
import QuantileSketch.SortedView.Runs

namespace QuantileSketch

variable {α : Type} {cmp : α → α → Ordering}

/-! ### What a stable sort is -/

/-- The items of a list that are tied with `a`, in the order of the list. -/
def ties (cmp : α → α → Ordering) (a : α) (xs : List α) : List α :=
  xs.filter fun x => cmp a x = .eq

theorem mem_ties {a x : α} {xs : List α} : x ∈ ties cmp a xs ↔ x ∈ xs ∧ cmp a x = .eq := by
  rw [ties, List.mem_filter, decide_eq_true_iff]

theorem ties_append (a : α) (xs ys : List α) :
    ties cmp a (xs ++ ys) = ties cmp a xs ++ ties cmp a ys :=
  List.filter_append xs ys

theorem ties_cons_of_eq {a x : α} (h : cmp a x = .eq) (xs : List α) :
    ties cmp a (x :: xs) = x :: ties cmp a xs :=
  List.filter_cons_of_pos (decide_eq_true h)

theorem ties_cons_of_ne {a x : α} (h : cmp a x ≠ .eq) (xs : List α) :
    ties cmp a (x :: xs) = ties cmp a xs :=
  List.filter_cons_of_neg (by simpa using h)

/-- `ys` is in order, and items that are tied stand in it as they do in `xs`. -/
structure StablySorts (cmp : α → α → Ordering) (xs ys : List α) : Prop where
  sorted : Sorted cmp ys
  ties : ∀ a, ties cmp a ys = ties cmp a xs

theorem mem_ties_self (cmp : α → α → Ordering) [Std.ReflCmp cmp] {a : α} {xs : List α} :
    a ∈ ties cmp a xs ↔ a ∈ xs := by
  rw [mem_ties]
  exact and_iff_left Std.ReflCmp.compare_self

theorem Sorted.head_isLE [Std.ReflCmp cmp] {x y : α} {xs : List α} (h : Sorted cmp (x :: xs))
    (hy : y ∈ x :: xs) : (cmp x y).isLE := by
  rcases List.mem_cons.mp hy with rfl | hy
  · have hself : cmp y y = .eq := Std.ReflCmp.compare_self
    rw [hself]
    rfl
  · exact (List.pairwise_cons.mp h).1 y hy

/-- Two lists in order with the same ties are the same. -/
theorem Sorted.eq_of_ties [Std.TransCmp cmp] {ys zs : List α} (hy : Sorted cmp ys)
    (hz : Sorted cmp zs) (h : ∀ a, ties cmp a ys = ties cmp a zs) : ys = zs := by
  have hmem : ∀ a, a ∈ ys ↔ a ∈ zs := by
    intro a
    rw [← mem_ties_self cmp, h, mem_ties_self]
  induction ys generalizing zs with
  | nil =>
    cases zs with
    | nil => rfl
    | cons z zs => exact absurd ((hmem z).mpr List.mem_cons_self) List.not_mem_nil
  | cons y ys ih =>
    cases zs with
    | nil => exact absurd ((hmem y).mp List.mem_cons_self) List.not_mem_nil
    | cons z zs =>
      -- Each head is in the other list, so neither is above the other one.
      have hyz : (cmp y z).isLE := hy.head_isLE ((hmem z).mpr List.mem_cons_self)
      have hzy : (cmp z y).isLE := hz.head_isLE ((hmem y).mp List.mem_cons_self)
      have htie : cmp y z = .eq := Std.OrientedCmp.isLE_antisymm hyz hzy
      have hheads := h y
      rw [ties_cons_of_eq Std.ReflCmp.compare_self, ties_cons_of_eq htie] at hheads
      obtain rfl : y = z := (List.cons.inj hheads).1
      have htails : ∀ a, ties cmp a ys = ties cmp a zs := by
        intro a
        have ha := h a
        by_cases hay : cmp a y = .eq
        · rw [ties_cons_of_eq hay, ties_cons_of_eq hay] at ha
          exact (List.cons.inj ha).2
        · rwa [ties_cons_of_ne hay, ties_cons_of_ne hay] at ha
      rw [ih (List.pairwise_cons.mp hy).2 (List.pairwise_cons.mp hz).2 htails fun a => by
        rw [← mem_ties_self cmp, htails, mem_ties_self]]

/-- A list has only one stable sort. -/
theorem StablySorts.eq [Std.TransCmp cmp] {xs ys zs : List α} (hy : StablySorts cmp xs ys)
    (hz : StablySorts cmp xs zs) : ys = zs :=
  hy.sorted.eq_of_ties hz.sorted fun a => (hy.ties a).trans (hz.ties a).symm

/-! ### Sorting and merging -/

theorem sorted_ties [Std.TransCmp cmp] (a : α) (xs : List α) : Sorted cmp (ties cmp a xs) := by
  refine List.pairwise_of_forall_mem_list ?_
  intro x hx y hy
  rw [← Std.TransCmp.congr_left (mem_ties.mp hx).2, (mem_ties.mp hy).2]
  rfl

/-- The sort of a list is stable. -/
theorem sortBy_stablySorts [Std.TransCmp cmp] (xs : List α) :
    StablySorts cmp xs (sortBy cmp xs) := by
  refine ⟨sorted_sortBy cmp xs, fun a => ?_⟩
  -- The ties are in order, so they are left together and in their order.
  have hsub : (ties cmp a xs).Sublist (sortBy cmp xs) :=
    List.sublist_mergeSort (fun _ _ _ => Std.TransCmp.isLE_trans) isLE_total (sorted_ties a xs)
      List.filter_sublist
  have htwice : ties cmp a (ties cmp a xs) = ties cmp a xs :=
    List.filter_eq_self.mpr fun x hx => decide_eq_true (mem_ties.mp hx).2
  have hties : (ties cmp a xs).Sublist (ties cmp a (sortBy cmp xs)) := by
    rw [← htwice]
    exact hsub.filter _
  exact (hties.eq_of_length ((sortBy_perm cmp xs).filter _).length_eq.symm).symm

/-- Merging two lists in order leaves the ties of the first before those of the second. -/
theorem ties_mergeBy [Std.TransCmp cmp] {xs ys : List α} (hx : Sorted cmp xs)
    (hy : Sorted cmp ys) (a : α) :
    ties cmp a (mergeBy cmp xs ys) = ties cmp a xs ++ ties cmp a ys := by
  induction xs generalizing ys with
  | nil => rw [mergeBy, List.nil_merge]; rfl
  | cons x xs ihx =>
    induction ys with
    | nil => rw [mergeBy, List.merge_right]; exact (List.append_nil _).symm
    | cons y ys ihy =>
      by_cases hxy : (cmp x y).isLE
      · rw [mergeBy, List.cons_merge_cons_pos _ _ _ hxy]
        have htail := ihx (List.pairwise_cons.mp hx).2 hy
        by_cases hax : cmp a x = .eq
        · rw [ties_cons_of_eq hax, ties_cons_of_eq hax, List.cons_append, ← htail]
          rfl
        · rw [ties_cons_of_ne hax, ties_cons_of_ne hax, ← htail]
          rfl
      · rw [mergeBy, List.cons_merge_cons_neg _ _ _ hxy]
        have htail := ihy (List.pairwise_cons.mp hy).2
        by_cases hay : cmp a y = .eq
        · -- What is tied with `y` is below all of `x :: xs`.
          have hnone : ties cmp a (x :: xs) = [] := by
            refine List.eq_nil_iff_forall_not_mem.mpr fun z hz => hxy ?_
            have hyz : cmp y z = .eq :=
              Std.TransCmp.eq_trans (Std.OrientedCmp.eq_symm hay) (mem_ties.mp hz).2
            have hcongr : cmp x y = cmp x z := Std.TransCmp.congr_right hyz
            rw [hcongr]
            exact hx.head_isLE (mem_ties.mp hz).1
          rw [hnone, List.nil_append] at htail ⊢
          rw [ties_cons_of_eq hay, ties_cons_of_eq hay, ← htail]
          rfl
        · rw [ties_cons_of_ne hay, ties_cons_of_ne hay, ← htail]
          rfl

/-- To sort two lists together is to sort each and to merge what comes out. -/
theorem sortBy_append [Std.TransCmp cmp] (xs ys : List α) :
    sortBy cmp (xs ++ ys) = mergeBy cmp (sortBy cmp xs) (sortBy cmp ys) := by
  have hx := sorted_sortBy cmp xs
  have hy := sorted_sortBy cmp ys
  refine (sortBy_stablySorts (xs ++ ys)).eq ⟨hx.mergeBy hy, fun a => ?_⟩
  rw [ties_mergeBy hx hy, ties_append, (sortBy_stablySorts xs).ties, (sortBy_stablySorts ys).ties]

theorem mergeBy_eq_sortBy [Std.TransCmp cmp] {xs ys : List α} (hx : Sorted cmp xs)
    (hy : Sorted cmp ys) : mergeBy cmp xs ys = sortBy cmp (xs ++ ys) := by
  rw [sortBy_append, sortBy_of_sorted hx, sortBy_of_sorted hy]

/-- Sorting a part of a list beforehand makes no difference. -/
theorem sortBy_append_congr [Std.TransCmp cmp] {xs xs' ys ys' : List α}
    (hx : sortBy cmp xs = sortBy cmp xs') (hy : sortBy cmp ys = sortBy cmp ys') :
    sortBy cmp (xs ++ ys) = sortBy cmp (xs' ++ ys') := by
  rw [sortBy_append, sortBy_append, hx, hy]

theorem sortBy_sortBy [Std.TransCmp cmp] (xs : List α) :
    sortBy cmp (sortBy cmp xs) = sortBy cmp xs :=
  sortBy_of_sorted (sorted_sortBy cmp xs)

/-! ### Merging runs -/

theorem mergePairs_eq [Std.TransCmp cmp] {rs : List (List α)} (h : ∀ r ∈ rs, Sorted cmp r) :
    (∀ r ∈ mergePairs cmp rs, Sorted cmp r) ∧
      sortBy cmp (mergePairs cmp rs).flatten = sortBy cmp rs.flatten := by
  fun_induction mergePairs cmp rs with
  | case1 xs ys rest ih =>
    have hx : Sorted cmp xs := h xs List.mem_cons_self
    have hy : Sorted cmp ys := h ys (List.mem_cons_of_mem _ List.mem_cons_self)
    obtain ⟨hsorted, hrest⟩ := ih fun r hr =>
      h r (List.mem_cons_of_mem _ (List.mem_cons_of_mem _ hr))
    -- A merged pair sorts both runs, and the rest is sorted apart from it.
    refine ⟨?_, ?_⟩
    · intro r hr
      rcases List.mem_cons.mp hr with rfl | hr
      · exact hx.mergeBy hy
      · exact hsorted r hr
    · rw [List.flatten_cons, List.flatten_cons, List.flatten_cons, ← List.append_assoc,
        mergeBy_eq_sortBy hx hy]
      exact sortBy_append_congr (sortBy_sortBy _) hrest
  | case2 rest => exact ⟨h, rfl⟩

/-- Merging neighbouring runs until one is left sorts all of them together. -/
theorem mergeRuns_eq [Std.TransCmp cmp] {rs : List (List α)} (h : ∀ r ∈ rs, Sorted cmp r) :
    mergeRuns cmp rs = sortBy cmp rs.flatten := by
  fun_induction mergeRuns cmp rs with
  | case1 => rw [List.flatten_nil, sortBy, List.mergeSort_nil]
  | case2 xs => rw [List.flatten_singleton, sortBy_of_sorted (h xs List.mem_cons_self)]
  | case3 xs ys rest ih =>
    have hpairs := mergePairs_eq h
    rw [mergePairs] at hpairs
    rw [ih hpairs.1, hpairs.2]

theorem flatten_runs (size : ℕ) (xs : List α) : (runs size xs).flatten = xs := by
  fun_induction runs size xs with
  | case1 xs _ ih => rw [List.flatten_cons, ih, List.take_append_drop]
  | case2 xs _ => rw [List.flatten_singleton]

theorem sorted_of_mem_runs {size : ℕ} {xs : List α} (h : Sorted cmp xs) :
    ∀ r ∈ runs size xs, Sorted cmp r := by
  intro r hr
  have hsub := List.sublist_flatten_of_mem hr
  rw [flatten_runs] at hsub
  exact List.Pairwise.sublist hsub h

/-- Cutting blocks and what follows them into runs gives the blocks back. -/
theorem sorted_of_mem_runs_blocks {size : ℕ} (hsize : 0 < size) {blocks : List (List α)}
    {rest : List α} (hblocks : ∀ b ∈ blocks, b.length = size ∧ Sorted cmp b)
    (hrest : Sorted cmp rest) : ∀ r ∈ runs size (blocks.flatten ++ rest), Sorted cmp r := by
  induction blocks with
  | nil => exact sorted_of_mem_runs hrest
  | cons b blocks ih =>
    obtain ⟨hlength, hsorted⟩ := hblocks b List.mem_cons_self
    intro r hr
    rw [List.flatten_cons, List.append_assoc, runs] at hr
    split at hr
    · rcases List.mem_cons.mp hr with rfl | hr
      · rwa [← hlength, List.take_left]
      · rw [← hlength, List.drop_left, hlength] at hr
        exact ih (fun c hc => hblocks c (List.mem_cons_of_mem _ hc)) r hr
    · -- Not more than a block is left, so `b` is all of it.
      rename_i hshort
      have hnil : blocks.flatten ++ rest = [] := by
        rw [List.length_append, hlength] at hshort
        exact List.eq_nil_of_length_eq_zero (by omega)
      rwa [List.mem_singleton.mp hr, hnil, List.append_nil]

/-- Sorting a list that begins with blocks in order is sorting it. -/
theorem sortBlocks_eq [Std.TransCmp cmp] {size : ℕ} (hsize : 0 < size) {blocks : List (List α)}
    (hblocks : ∀ b ∈ blocks, b.length = size ∧ Sorted cmp b) (rest : List α) :
    sortBlocks cmp size blocks.flatten.length (blocks.flatten ++ rest)
      = sortBy cmp (blocks.flatten ++ rest) := by
  have hruns := sorted_of_mem_runs_blocks hsize hblocks (sorted_sortBy cmp rest)
  rw [sortBlocks, List.take_left, List.drop_left, mergeRuns_eq hruns, flatten_runs]
  exact sortBy_append_congr rfl (sortBy_sortBy rest)

end QuantileSketch
