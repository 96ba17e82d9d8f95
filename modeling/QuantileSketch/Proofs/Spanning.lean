/-
Quantiles in a row.

Between the ends, quantiles are read off what a sketch holds, and never go down because
places in a stream do not.  The answers for the ranks `0` and `1` are the extremes, which a
sketch keeps apart from what it holds; they are in order with the others if nothing that is
held is beyond them:

* `Spans` — extremes between which everything lies that is held;
* `Sound.quantileAt_isLE` — the items at two ranks are in order, where the ends are only asked
  for if the extremes span;
* `Sound.exists_quantiles` — so are the answers for ranks in a row.
-/
import QuantileSketch.Proofs.Quantile
import QuantileSketch.Proofs.Retained

namespace QuantileSketch

variable {α : Type} {cmp : α → α → Ordering}

theorem mapM_eq_ok {ε β γ : Type} {f : β → Except ε γ} {g : β → γ} {xs : List β}
    (h : ∀ x ∈ xs, f x = .ok (g x)) : xs.mapM f = .ok (xs.map g) := by
  induction xs with
  | nil => rfl
  | cons x xs ih =>
    obtain ⟨hx, hxs⟩ := List.forall_mem_cons.mp h
    rw [List.mapM_cons, hx, ih hxs]
    rfl

namespace Sketch

/-- No item that the sketch holds is beyond its extremes. -/
structure Spans (s : Sketch α cmp) : Prop where
  least : ∀ x ∈ s.least, ∀ y ∈ s.held, (cmp x y).isLE
  greatest : ∀ x ∈ s.greatest, ∀ y ∈ s.held, (cmp y x).isLE

theorem mem_held_of_mem_weighted {s : Sketch α cmp} {x : Weighted α}
    (h : x ∈ s.snapshot.weighted) : x.item ∈ s.held := by
  rw [mem_held]
  rcases List.mem_append.mp h with h | h
  · obtain ⟨b, hb, hx⟩ := List.mem_flatMap.mp h
    obtain ⟨y, hy, rfl⟩ := List.mem_map.mp hx
    exact .inr (List.mem_flatten.mpr ⟨b.2, (Levels.mem_occupiedFrom hb).1, hy⟩)
  · obtain ⟨y, hy, rfl⟩ := List.mem_map.mp h
    exact .inl hy

theorem mem_held_of_mem_expanded {s : Sketch α cmp} {x : α} (h : x ∈ s.expanded) : x ∈ s.held := by
  obtain ⟨w, hw, hx⟩ := List.mem_flatMap.mp h
  rw [(List.mem_replicate.mp hx).2]
  exact mem_held_of_mem_weighted ((sortBy_perm _ _).mem_iff.mp hw)

section Sound

variable [Std.TransCmp cmp] {s : Sketch α cmp}

/-- There is an item at each rank. -/
theorem Sound.exists_quantileAt (h : s.Sound) (hn : 0 < s.n) (rank : Float) :
    ∃ x, s.quantileAt rank = some x := by
  obtain ⟨least, greatest, hleast, hgreatest⟩ := h.exists_extremes hn
  obtain ⟨x, hx, -⟩ := h.exists_getElem?_expanded (position_lt hn rank)
  rw [quantileAt]
  cases rank == 0 with
  | true => exact ⟨least, hleast⟩
  | false =>
    cases rank == 1 with
    | true => exact ⟨greatest, hgreatest⟩
    | false => exact ⟨x, hx⟩

/-- The items at two ranks are in order, if the extremes span in case one of them is asked
for. -/
theorem Sound.quantileAt_isLE (h : s.Sound) (hn : 0 < s.n) {rank₁ rank₂ : Float}
    (h₁ : checkRank rank₁ = .ok ()) (h₂ : checkRank rank₂ = .ok ()) (hlt : rank₁ < rank₂)
    (hspans : rank₁ == 0 ∨ rank₂ == 1 → s.Spans) {x y : α} (hx : s.quantileAt rank₁ = some x)
    (hy : s.quantileAt rank₂ = some y) : (cmp x y).isLE := by
  obtain ⟨hone₁, hzero₂⟩ := beq_ends_of_lt h₁ h₂ hlt
  rw [quantileAt, hone₁] at hx
  rw [quantileAt, hzero₂] at hy
  cases hzero : rank₁ == 0 with
  | true =>
    have hspans := hspans (.inl hzero)
    rw [hzero] at hx
    cases hone : rank₂ == 1 with
    | true =>
      -- Some item is held, and lies between the extremes.
      rw [hone] at hy
      obtain ⟨z, hz, -⟩ := h.exists_getElem?_expanded hn
      have hz := mem_held_of_mem_expanded (List.mem_of_getElem? hz)
      exact Std.TransCmp.isLE_trans (hspans.least x hx z hz) (hspans.greatest y hy z hz)
    | false =>
      rw [hone] at hy
      exact hspans.least x hx y (mem_held_of_mem_expanded (List.mem_of_getElem? hy))
  | false =>
    rw [hzero] at hx
    cases hone : rank₂ == 1 with
    | true =>
      rw [hone] at hy
      exact (hspans (.inr hone)).greatest y hy x
        (mem_held_of_mem_expanded (List.mem_of_getElem? hx))
    | false =>
      rw [hone] at hy
      have hle : rank₁ ≤ rank₂ :=
        (rankValue_le_iff h₁ h₂).mpr ((rankValue_lt_iff h₁ h₂).mp hlt).le
      exact s.sorted_expanded.isLE_of_getElem? (position_mono h₁ h₂ hle s.n) hx hy

theorem Sound.quantiles_eq (h : s.Sound) (hn : 0 < s.n) {ranks : List Float}
    (hranks : checkRanks ranks = .ok ()) :
    s.quantiles ranks = .ok (some (ranks.filterMap s.quantileAt)) := by
  have hmapM := mapM_eq_ok fun rank hrank =>
    h.quantileIn_eq hn ((checkRanks_eq_ok_iff.mp hranks).1 rank hrank)
  rw [quantiles, hranks, isEmpty_eq_false hn, h.sortedView_eq]
  show (ranks.mapM (s.quantileIn _) >>= fun items => .ok (some items.reduceOption)) = _
  rw [hmapM]
  show Except.ok (some ((ranks.map s.quantileAt).filterMap id)) = _
  rw [List.filterMap_map]
  rfl

/-- Ranks that are accepted in a row give one item for each, which is the answer for that
rank, and these items never go down, if the extremes span in case one of them is asked
for. -/
theorem Sound.exists_quantiles (h : s.Sound) (hn : 0 < s.n) {ranks : List Float}
    (hranks : checkRanks ranks = .ok ())
    (hspans : (∃ rank ∈ ranks, rank == 0 ∨ rank == 1) → s.Spans) :
    ∃ items, s.quantiles ranks = .ok (some items)
      ∧ ranks.map s.quantile = items.map (fun x => .ok (some x)) ∧ Sorted cmp items := by
  obtain ⟨haccepted, hincreasing⟩ := checkRanks_eq_ok_iff.mp hranks
  choose item hitem using h.exists_quantileAt hn
  have hall : s.quantileAt = some ∘ item := funext hitem
  refine ⟨ranks.map item, ?_, ?_, ?_⟩
  · rw [h.quantiles_eq hn hranks, hall, List.filterMap_eq_map]
  · rw [List.map_map]
    refine List.map_congr_left fun rank hrank => ?_
    rw [h.quantile_eq hn (haccepted rank hrank), hitem]
    rfl
  · refine List.pairwise_map.mpr (hincreasing.imp_of_mem fun h₁ h₂ hlt => ?_)
    refine h.quantileAt_isLE hn (haccepted _ h₁) (haccepted _ h₂) hlt (fun hend => hspans ?_)
      (hitem _) (hitem _)
    exact hend.elim (fun hzero => ⟨_, h₁, .inl hzero⟩) fun hone => ⟨_, h₂, .inr hone⟩

end Sound

end Sketch

end QuantileSketch
