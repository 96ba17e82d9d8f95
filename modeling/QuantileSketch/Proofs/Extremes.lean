/-
The extremes of a stream, and the quantiles between them.

The extremes of a sketch are kept apart from its other contents.  An update compares them
with the item that it adds, and a merge with the items of the other sketch's buffer, with
those of its own one if that has to be fed again, and with the extremes of the other sketch;
blocks are not looked at, and what was compacted away cannot be.  That the extremes bound
what is held is thus a matter of the history:

* `IsLeastOf` — an item of the stream that none is below, kept by comparing
  (`IsLeastOf.elim_lesser`); `ArrivesFirst` — the first such one, kept by updates;
* `Summarizes.extremes_and_quantiles` — the extremes are those of the stream, and the
  answers for increasing ranks never go down.

Design notes: the greatest item is the least one for the reversed order, and is kept in the
same way (`greater_eq`), so what is shown for one is an instance for the other.
-/
import QuantileSketch.Proofs.Spanning

open QuantileSketch.Randomized

namespace QuantileSketch

variable {α : Type} {cmp : α → α → Ordering}

/-! ### Least items -/

/-- What is known is an item of the list that none is below; of an empty list nothing is
known. -/
def IsLeastOf (cmp : α → α → Ordering) : Option α → List α → Prop
  | none, xs => xs = []
  | some x, xs => x ∈ xs ∧ ∀ y ∈ xs, (cmp x y).isLE

/-- What is known is the first item of the list that none is below. -/
def ArrivesFirst (cmp : α → α → Ordering) : Option α → List α → Prop
  | none, xs => xs = []
  | some x, xs => ∃ earlier later, xs = earlier ++ x :: later
    ∧ (∀ y ∈ earlier, (cmp x y).isLT) ∧ ∀ y ∈ later, (cmp x y).isLE

/-- Only which items the list has matters, not how often or where. -/
theorem IsLeastOf.congr {known : Option α} {xs ys : List α} (h : IsLeastOf cmp known xs)
    (hxy : ∀ x, x ∈ xs ↔ x ∈ ys) : IsLeastOf cmp known ys := by
  cases known with
  | none =>
    rw [show xs = [] from h] at hxy
    exact List.eq_nil_iff_forall_not_mem.mpr fun y hy => List.not_mem_nil ((hxy y).mpr hy)
  | some x => exact ⟨(hxy x).mp h.1, fun y hy => h.2 y ((hxy y).mpr hy)⟩

theorem isLeastOf_singleton [Std.ReflCmp cmp] (x : α) : IsLeastOf cmp (some x) [x] := by
  refine ⟨List.mem_singleton_self x, fun y hy => ?_⟩
  rw [List.mem_singleton.mp hy]
  exact Std.ReflCmp.isLE_rfl

theorem isLE_of_isLT {x y : α} (h : (cmp x y).isLT) : (cmp x y).isLE :=
  Ordering.isLE_of_eq_lt (Ordering.isLT_iff_eq_lt.mp h)

theorem isLT_of_isLT_of_isLE [Std.TransCmp cmp] {x y z : α} (hxy : (cmp x y).isLT)
    (hyz : (cmp y z).isLE) : (cmp x z).isLT := by
  rw [Ordering.isLT_iff_eq_lt] at hxy ⊢
  exact Std.TransCmp.lt_of_lt_of_isLE hxy hyz

/-- Of two items the new one is kept only if it is below, so none is below the one that
is kept. -/
theorem Sketch.lesser_some_cases (cmp : α → α → Ordering) [Std.OrientedCmp cmp] (x y : α) :
    (lesser cmp (some x) y = some y ∧ (cmp y x).isLT)
      ∨ (lesser cmp (some x) y = some x ∧ (cmp x y).isLE) := by
  have hswap : cmp x y = (cmp y x).swap := Std.OrientedCmp.eq_swap
  rw [lesser, hswap]
  cases cmp y x with
  | lt => exact .inl ⟨rfl, rfl⟩
  | eq => exact .inr ⟨rfl, rfl⟩
  | gt => exact .inr ⟨rfl, rfl⟩

theorem Sketch.greater_eq : greater cmp = lesser (reversed cmp) := by
  funext known x
  cases known <;> rfl

/-- The least items of two lists, compared, give that of both. -/
theorem IsLeastOf.elim_lesser [Std.TransCmp cmp] {known other : Option α} {xs ys : List α}
    (h : IsLeastOf cmp known xs) (hother : IsLeastOf cmp other ys) :
    IsLeastOf cmp (other.elim known (Sketch.lesser cmp known)) (xs ++ ys) := by
  cases other with
  | none =>
    rw [show ys = [] from hother, List.append_nil]
    exact h
  | some y =>
    obtain ⟨hy, hyle⟩ := hother
    cases known with
    | none =>
      rw [show xs = [] from h, List.nil_append]
      exact ⟨hy, hyle⟩
    | some x =>
      obtain ⟨hx, hxle⟩ := h
      rw [Option.elim_some]
      rcases Sketch.lesser_some_cases cmp x y with ⟨hkeep, hyx⟩ | ⟨hkeep, hxy⟩
      · rw [hkeep]
        refine ⟨List.mem_append_right xs hy, List.forall_mem_append.mpr ⟨fun z hz => ?_, hyle⟩⟩
        exact Std.TransCmp.isLE_trans (isLE_of_isLT hyx) (hxle z hz)
      · rw [hkeep]
        refine ⟨List.mem_append_left ys hx, List.forall_mem_append.mpr ⟨hxle, fun z hz => ?_⟩⟩
        exact Std.TransCmp.isLE_trans hxy (hyle z hz)

theorem IsLeastOf.foldl_lesser [Std.TransCmp cmp] {known : Option α} {xs : List α}
    (h : IsLeastOf cmp known xs) (ys : List α) :
    IsLeastOf cmp (ys.foldl (Sketch.lesser cmp) known) (xs ++ ys) := by
  induction ys generalizing known xs with
  | nil =>
    rw [List.append_nil]
    exact h
  | cons y ys ih =>
    rw [List.append_cons]
    exact ih (h.elim_lesser (isLeastOf_singleton y))

/-- Items that are known already do not change what the least one is. -/
theorem IsLeastOf.foldl_known [Std.TransCmp cmp] {known : Option α} {xs zs : List α}
    (h : IsLeastOf cmp known xs) (hzs : zs ⊆ xs) :
    IsLeastOf cmp (zs.foldl (Sketch.lesser cmp) known) xs := by
  refine (h.foldl_lesser zs).congr fun x => ?_
  rw [List.mem_append]
  exact or_iff_left_of_imp fun hx => hzs hx

/-- Nor do some items of the other list, when they are looked at before its least one. -/
theorem IsLeastOf.foldl_elim_lesser [Std.TransCmp cmp] {known other : Option α}
    {xs ys zs : List α} (h : IsLeastOf cmp known xs) (hother : IsLeastOf cmp other ys)
    (hzs : zs ⊆ ys) :
    IsLeastOf cmp (other.elim (zs.foldl (Sketch.lesser cmp) known)
      (Sketch.lesser cmp (zs.foldl (Sketch.lesser cmp) known))) (xs ++ ys) := by
  refine ((h.foldl_lesser zs).elim_lesser hother).congr fun x => ?_
  rw [List.append_assoc, List.mem_append, List.mem_append, List.mem_append]
  exact or_congr_right (or_iff_right_of_imp fun hx => hzs hx)

/-- A new item takes the place of the first least one only if it is below. -/
theorem ArrivesFirst.lesser [Std.TransCmp cmp] {known : Option α} {xs : List α}
    (h : ArrivesFirst cmp known xs) (y : α) :
    ArrivesFirst cmp (Sketch.lesser cmp known y) (xs ++ [y]) := by
  cases known with
  | none =>
    rw [show xs = [] from h]
    exact ⟨[], [], rfl, List.forall_mem_nil _, List.forall_mem_nil _⟩
  | some x =>
    obtain ⟨earlier, later, rfl, hearlier, hlater⟩ := h
    rcases Sketch.lesser_some_cases cmp x y with ⟨hkeep, hyx⟩ | ⟨hkeep, hxy⟩
    · rw [hkeep]
      -- Nothing so far is below `x`, so all of it is above `y`.
      refine ⟨earlier ++ x :: later, [], rfl, ?_, List.forall_mem_nil _⟩
      refine List.forall_mem_append.mpr ⟨fun z hz => ?_, List.forall_mem_cons.mpr ⟨hyx, ?_⟩⟩
      · exact isLT_of_isLT_of_isLE hyx (isLE_of_isLT (hearlier z hz))
      · exact fun z hz => isLT_of_isLT_of_isLE hyx (hlater z hz)
    · rw [hkeep]
      refine ⟨earlier, later ++ [y], ?_, hearlier, ?_⟩
      · rw [List.append_assoc, List.cons_append]
      · exact List.forall_mem_append.mpr ⟨hlater, List.forall_mem_singleton.mpr hxy⟩

namespace Sketch

/-! ### The extremes that are kept -/

theorem extremes_of_mem_updateAll {s s' : Sketch α cmp} {xs : List α} (h : s' ∈ s.updateAll xs) :
    s'.least = xs.foldl (lesser cmp) s.least
      ∧ s'.greatest = xs.foldl (lesser (reversed cmp)) s.greatest := by
  refine updateAll_induction (motive := fun ys t => t.least = ys.foldl (lesser cmp) s.least
    ∧ t.greatest = ys.foldl (lesser (reversed cmp)) s.greatest) h ⟨rfl, rfl⟩ ?_
  rintro ys t t' x ⟨hleast, hgreatest⟩ ht'
  obtain ⟨buffer, levels, rfl⟩ := exists_of_mem_update ht'
  rw [List.foldl_append, List.foldl_append, ← hleast, ← hgreatest, ← greater_eq]
  exact ⟨rfl, rfl⟩

/-- Taking in another sketch looks at the items of its buffer only. -/
theorem extremes_of_mem_absorb {s s' other : Sketch α cmp} (hstride : 0 < other.k / s.k)
    (h : s' ∈ s.absorb other) :
    s'.least = other.buffer.toList.foldl (lesser cmp) s.least
      ∧ s'.greatest = other.buffer.toList.foldl (lesser (reversed cmp)) s.greatest := by
  obtain ⟨t, ht, u, hu, rfl⟩ := mem_absorb.mp h
  have hextremes := extremes_of_mem_updateAll ht
  obtain ⟨levels, rfl⟩ := exists_of_mem_absorbBlocks hstride hu
  exact hextremes

/-- What the sketch keeps comes from the stream, and its extremes are those of the
stream. -/
structure Bounds (s : Sketch α cmp) (xs : List α) : Prop where
  held : s.held ⊆ xs
  least : IsLeastOf cmp s.least xs
  greatest : IsLeastOf (reversed cmp) s.greatest xs

theorem Bounds.empty (k : ℕ) : Bounds (empty k : Sketch α cmp) [] :=
  ⟨List.Subset.refl _, rfl, rfl⟩

theorem Bounds.update [Std.TransCmp cmp] {s s' : Sketch α cmp} {xs : List α} {x : α}
    (h : Bounds s xs) (hs' : s' ∈ s.update x) : Bounds s' (xs ++ [x]) := by
  have hheld := subset_append_of_coe_le (held_update_le hs')
  obtain ⟨buffer, levels, rfl⟩ := exists_of_mem_update hs'
  refine ⟨?_, h.least.foldl_lesser [x], ?_⟩
  · intro y hy
    exact List.mem_append.mpr ((List.mem_append.mp (hheld hy)).imp_left fun hy => h.held hy)
  · show IsLeastOf (reversed cmp) (greater cmp s.greatest x) _
    rw [greater_eq]
    exact h.greatest.foldl_lesser [x]

/-- Feeding a sketch its own contents again leaves its extremes those of the stream. -/
theorem Bounds.reduced [Std.TransCmp cmp] {s s' : Sketch α cmp} {xs : List α} {k : ℕ}
    (h : Bounds s xs) (hk : Admissible k) (hs' : s' ∈ s.reduced k) : Bounds s' xs := by
  have hheld : s'.held ⊆ s.held := Multiset.coe_subset.mp
    (Multiset.subset_of_le (held_reduced_le hk hs'))
  rw [Sketch.reduced] at hs'
  split at hs'
  · rename_i hlt
    have hstride : 0 < s.k / k := Nat.div_pos (Nat.le_of_lt hlt) hk.pos
    have hbuffer : s.buffer.toList ⊆ xs := fun x hx => h.held (mem_held.mpr (.inl hx))
    obtain ⟨hleast, hgreatest⟩ := extremes_of_mem_absorb hstride hs'
    refine ⟨fun x hx => h.held (hheld hx), ?_, ?_⟩
    · rw [hleast]
      exact h.least.foldl_known hbuffer
    · rw [hgreatest]
      exact h.greatest.foldl_known hbuffer
  · rw [mem_done] at hs'
    rw [hs']
    exact h

/-- Taking in another sketch and then its extremes gives the extremes of both streams. -/
theorem Bounds.absorb [Std.TransCmp cmp] {s s' other : Sketch α cmp} {xs ys : List α}
    (h : Bounds s xs) (hother : Bounds other ys) (hstride : 0 < other.k / s.k)
    (hs' : s' ∈ s.absorb other) : Bounds (s'.meetExtremes other) (xs ++ ys) := by
  have hheld := subset_append_of_coe_le (held_absorb_le hstride hs')
  obtain ⟨hleast, hgreatest⟩ := extremes_of_mem_absorb hstride hs'
  have hbuffer : other.buffer.toList ⊆ ys := fun x hx => hother.held (mem_held.mpr (.inl hx))
  refine ⟨fun x hx => ?_, ?_, ?_⟩
  · exact List.mem_append.mpr
      ((List.mem_append.mp (hheld hx)).imp (fun hx => h.held hx) fun hx => hother.held hx)
  · rw [meetExtremes, hleast]
    exact h.least.foldl_elim_lesser hother.least hbuffer
  · rw [meetExtremes, hgreatest, greater_eq]
    exact h.greatest.foldl_elim_lesser hother.greatest hbuffer

theorem Bounds.rewritten {s : Sketch α cmp} {xs : List α} (h : Bounds s xs) (ordered : Bool) :
    Bounds (s.rewritten ordered) xs := by
  refine ⟨fun x hx => h.held (mem_held.mpr ((mem_held.mp hx).imp_left fun hx => ?_)), h.least,
    h.greatest⟩
  exact (writtenBuffer_perm ordered s).mem_iff.mp hx

theorem Summarizes.bounds [Std.TransCmp cmp] {s : Sketch α cmp} {xs : List α}
    (h : Summarizes s xs) : Bounds s xs := by
  induction h with
  | ofSize h =>
    obtain ⟨-, rfl⟩ := admissible_of_ofSize? h
    exact Bounds.empty _
  | update _ h ih => exact ih.update h
  | @merge s other s' xs ys merged hs hother hmerge h ih ihother =>
    have hsound := hs.reachable.sound
    have hsound' := hother.reachable.sound
    by_cases hn : other.n = 0
    · have hys : ys = [] := List.eq_nil_of_length_eq_zero (hother.n_eq ▸ hn)
      rw [merge_of_n_eq_zero s hn, Except.ok.injEq] at hmerge
      subst hmerge
      rw [mem_done] at h
      rw [h, hys, List.append_nil]
      exact ih
    · obtain ⟨t, ht, u, hu, rfl⟩ := (mem_merge hsound.size hsound'.size hn hmerge).mp h
      obtain ⟨hstands, hk, -⟩ := hsound.standsFor.reduced hsound'.size ht
      have hstride : 0 < other.k / t.k :=
        Nat.div_pos (hk ▸ Nat.min_le_right _ _) hstands.size.pos
      exact (ih.reduced hsound'.size ht).absorb ihother hstride hu
  | reset => exact Bounds.empty _
  | reload hs hitems hn h ih =>
    rw [hs.reachable.sound.decode?_encode hitems hn, Except.ok.injEq] at h
    rw [← h]
    exact ih.rewritten _

/-- While there are only updates, an extreme gives way to those beyond it only. -/
theorem arrivesFirst_of_mem_updateAll [Std.TransCmp cmp] {s : Sketch α cmp} {k : ℕ} {xs : List α}
    (h : s ∈ (empty k).updateAll xs) :
    ArrivesFirst cmp s.least xs ∧ ArrivesFirst (reversed cmp) s.greatest xs := by
  refine updateAll_induction (motive := fun ys t =>
    ArrivesFirst cmp t.least ys ∧ ArrivesFirst (reversed cmp) t.greatest ys) h ⟨rfl, rfl⟩ ?_
  rintro ys t t' x ⟨hleast, hgreatest⟩ ht'
  obtain ⟨buffer, levels, rfl⟩ := exists_of_mem_update ht'
  refine ⟨hleast.lesser x, ?_⟩
  show ArrivesFirst (reversed cmp) (greater cmp t.greatest x) _
  rw [greater_eq]
  exact hgreatest.lesser x

/-- The extremes of the stream are beyond all that is held. -/
theorem Bounds.spans {s : Sketch α cmp} {xs : List α} (h : Bounds s xs) : s.Spans where
  least x hx y hy := by
    have hleast := h.least
    rw [show s.least = some x from hx] at hleast
    exact hleast.2 y (h.held hy)
  greatest x hx y hy := by
    have hgreatest := h.greatest
    rw [show s.greatest = some x from hx] at hgreatest
    exact hgreatest.2 y (h.held hy)

/-- **Extremes, and quantiles between them.**  The extremes of a sketch that has seen
something are items of its stream, and no item is beyond them; while there are only updates,
each is the first such item.  Ranks that are accepted in a row give one item for each, which
is the answer for that rank, and these items never go down. -/
theorem Summarizes.extremes_and_quantiles [Std.TransCmp cmp] {s : Sketch α cmp} {xs : List α}
    (h : Summarizes s xs) (hxs : xs ≠ []) :
    (∃ least ∈ xs, ∃ greatest ∈ xs, s.least = some least ∧ s.greatest = some greatest
        ∧ ∀ y ∈ xs, (cmp least y).isLE ∧ (cmp y greatest).isLE)
      ∧ (∀ k, s ∈ (empty k).updateAll xs →
          ArrivesFirst cmp s.least xs ∧ ArrivesFirst (reversed cmp) s.greatest xs)
      ∧ ∀ ranks, checkRanks ranks = .ok () →
          ∃ items, s.quantiles ranks = .ok (some items)
            ∧ ranks.map s.quantile = items.map (fun x => .ok (some x))
            ∧ Sorted cmp items := by
  have hsound := h.reachable.sound
  have hn := h.n_pos hxs
  refine ⟨?_, fun k hk => arrivesFirst_of_mem_updateAll hk, fun ranks hranks =>
    hsound.exists_quantiles hn hranks fun _ => h.bounds.spans⟩
  obtain ⟨least, greatest, hleast, hgreatest⟩ := hsound.exists_extremes hn
  have hlower := h.bounds.least
  have hupper := h.bounds.greatest
  rw [hleast] at hlower
  rw [hgreatest] at hupper
  exact ⟨least, hlower.1, greatest, hupper.1, hleast, hgreatest,
    fun y hy => ⟨hlower.2 y hy, hupper.2 y hy⟩⟩

theorem Summarizes.extremes_and_quantiles_afterFive :
    Summarizes afterFive [1, 2, 3, 4, 5] ∧ [1, 2, 3, 4, 5] ≠ ([] : List ℕ)
      ∧ afterFive ∈ (empty 2).updateAll [1, 2, 3, 4, 5]
      ∧ ArrivesFirst compare afterFive.least [1, 2, 3, 4, 5]
      ∧ checkRanks [0, 0.5, 1] = .ok ()
      ∧ ∃ items, afterFive.quantiles [0, 0.5, 1] = .ok (some items)
        ∧ items.length = 3 ∧ Sorted compare items := by
  have hxs : [1, 2, 3, 4, 5] ≠ ([] : List ℕ) := List.cons_ne_nil _ _
  have hranks : checkRanks [0, 0.5, 1] = .ok () := by rfl
  obtain ⟨-, hfirst, hquantiles⟩ :=
    Summarizes.extremes_and_quantiles summarizes_afterFive hxs
  obtain ⟨items, hitems, hpointwise, hsorted⟩ := hquantiles _ hranks
  have hlength : items.length = 3 := by
    have hmaps := congrArg List.length hpointwise
    rw [List.length_map, List.length_map] at hmaps
    exact hmaps.symm
  exact ⟨summarizes_afterFive, hxs, afterFive_mem_updateAll,
    (hfirst 2 afterFive_mem_updateAll).1, hranks, items, hitems, hlength, hsorted⟩

end Sketch

end QuantileSketch
