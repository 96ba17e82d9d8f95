/-
Merging a sketch that has compacted nothing.

Such a sketch has its whole stream in its buffer.  Merging it is to feed these items to the
sketch, one by one, with the same draws; all that a merge does besides is to set the count,
which is right already, and to look at extremes that are among the items:

* `run_bind` — a run of one step after another;
* `Summarizes.buffer_perm` — the buffer of a sketch that has compacted nothing;
* `IsLeastOf.elim_known` — an item that was seen already changes no extreme;
* `LiveSketch.merge_eq_updates` — the merge and the updates leave the same sketch and the same
  source.

Design notes: only the extremes of the other sketch need a history, since for bytes that were
read they could be anything; the sketch that is merged into may have come about in any way.
-/
import QuantileSketch.Proofs.Lossless

open QuantileSketch.Randomized

namespace QuantileSketch

variable {α β γ ρ : Type} {cmp : α → α → Ordering} [RandomSource ρ]

/-! ### Runs -/

namespace Randomized

theorem run_notes (events : List Event) (x : Randomized β) (source : ρ) :
    (notes events x).run source
      = { x.run source with events := events ++ (x.run source).events } := by
  induction events with
  | nil => rfl
  | cons event events ih =>
    rw [notes, run, ih]
    rfl

/-- A step answers its draws with what the step before it has left of the source. -/
theorem run_bind (x : Randomized β) (f : β → Randomized γ) (source : ρ) :
    (x.bind f).run source
      = { (f (x.run source).value).run (x.run source).source with
          events := (x.run source).events
            ++ ((f (x.run source).value).run (x.run source).source).events } := by
  induction x generalizing source with
  | done value => rfl
  | draw d next ih => exact ih _ _
  | note event next ih =>
    rw [note_bind, run, ih]
    rfl

end Randomized

/-- Items that are fed in a row are fed one after the other. -/
theorem LiveSketch.updateAll_eq_foldl (s : LiveSketch α cmp ρ) (xs : List α) :
    (s.updateAll xs).1 = xs.foldl (fun t x => (t.update x).1) s := by
  induction xs generalizing s with
  | nil => rfl
  | cons x xs ih =>
    rw [updateAll, Sketch.updateAll, become, run_bind]
    exact ih (s.update x).1

/-! ### Items that were seen already -/

theorem isLeastOf_toList [Std.ReflCmp cmp] (known : Option α) :
    IsLeastOf cmp known known.toList := by
  cases known with
  | none => rfl
  | some x => exact isLeastOf_singleton x

/-- The least item stays as it is when an item of the list is looked at again. -/
theorem IsLeastOf.elim_known [Std.OrientedCmp cmp] {known other : Option α} {xs : List α}
    (h : IsLeastOf cmp known xs) (hother : ∀ y ∈ other, y ∈ xs) :
    other.elim known (Sketch.lesser cmp known) = known := by
  cases other with
  | none => rfl
  | some y =>
    have hy := hother y rfl
    cases known with
    | none =>
      rw [show xs = [] from h] at hy
      cases hy
    | some x =>
      rcases Sketch.lesser_some_cases cmp x y with ⟨-, hlt⟩ | ⟨hkeep, -⟩
      · -- The item would have to be below the least one.
        have hge : (cmp y x).isGE := Std.OrientedCmp.isGE_iff_isLE.mpr (h.2 y hy)
        exfalso
        revert hlt hge
        cases cmp y x <;> decide
      · exact hkeep

namespace Sketch

/-! ### Sketches that have compacted nothing -/

theorem Sound.size_eq_of_lt {s : Sketch α cmp} (h : s.Sound) (hn : s.n < 2 * s.k) :
    s.buffer.size = s.n := by
  rw [h.buffer, bufferCount, Nat.mod_eq_of_lt hn]

theorem Sound.levels_eq_nil {s : Sketch α cmp} (h : s.Sound) (hn : s.n < 2 * s.k) :
    s.levels = [] := by
  rw [← List.length_eq_zero_iff, h.levels.length, occupancy, Nat.div_eq_of_lt hn]
  rfl

/-- The buffer of a sketch that has compacted nothing holds the stream, in some order. -/
theorem Summarizes.buffer_perm [Std.TransCmp cmp] {s : Sketch α cmp} {xs : List α}
    (h : Summarizes s xs) (hn : s.n < 2 * s.k) : s.buffer.toList.Perm xs := by
  have hsound := h.reachable.sound
  have hle := h.held_le
  rw [held, hsound.levels_eq_nil hn, List.flatten_nil, List.append_nil] at hle
  refine Multiset.coe_eq_coe.mp (Multiset.eq_of_le_of_card_le hle ?_)
  rw [Multiset.coe_card, Multiset.coe_card, ← h.n_eq, ← hsound.size_eq_of_lt hn,
    Array.length_toList]

theorem n_of_mem_updateAll {s s' : Sketch α cmp} {xs : List α} (h : s' ∈ s.updateAll xs) :
    s'.n = s.n + xs.length := by
  refine updateAll_induction (motive := fun ys t => t.n = s.n + ys.length) h rfl ?_
  intro ys t t' x ht ht'
  rw [n_of_mem_update ht', ht, List.length_append, List.length_singleton, Nat.add_assoc]

/-- A sketch that was fed a list has nothing to learn from extremes that are in the list. -/
theorem meetExtremes_of_mem_updateAll [Std.TransCmp cmp] {s s' other : Sketch α cmp} {xs : List α}
    (h : s' ∈ s.updateAll xs) (hleast : ∀ y ∈ other.least, y ∈ xs)
    (hgreatest : ∀ y ∈ other.greatest, y ∈ xs) : s'.meetExtremes other = s' := by
  obtain ⟨hlower, hupper⟩ := extremes_of_mem_updateAll h
  have hleastOf : IsLeastOf cmp s'.least (s.least.toList ++ xs) := by
    rw [hlower]
    exact (isLeastOf_toList s.least).foldl_lesser xs
  have hgreatestOf : IsLeastOf (reversed cmp) s'.greatest (s.greatest.toList ++ xs) := by
    rw [hupper]
    exact (isLeastOf_toList s.greatest).foldl_lesser xs
  rw [meetExtremes, greater_eq,
    hleastOf.elim_known fun y hy => List.mem_append_right _ (hleast y hy),
    hgreatestOf.elim_known fun y hy => List.mem_append_right _ (hgreatest y hy)]

/-- The least and the greatest item of a stream are in the stream. -/
theorem Bounds.mem_of_mem_extremes {s : Sketch α cmp} {xs : List α} (h : Bounds s xs) :
    (∀ y ∈ s.least, y ∈ xs) ∧ ∀ y ∈ s.greatest, y ∈ xs := by
  have hleast := h.least
  have hgreatest := h.greatest
  refine ⟨fun y hy => ?_, fun y hy => ?_⟩
  · rw [show s.least = some y from hy] at hleast
    exact hleast.1
  · rw [show s.greatest = some y from hy] at hgreatest
    exact hgreatest.1

/-- Without levels only the buffer is taken in. -/
theorem absorb_of_levels_eq_nil (s : Sketch α cmp) {other : Sketch α cmp}
    (h : other.levels = []) :
    ∃ events, s.absorb other = .notes events
      ((s.updateAll other.buffer.toList).bind fun t => .done { t with n := s.n + other.n }) := by
  rw [absorb, h]
  exact ⟨_, rfl⟩

/-- Merging a sketch that has compacted nothing notes something at most, and then feeds the
items of its buffer. -/
theorem Summarizes.merge_eq_updateAll [Std.TransCmp cmp] {s other : Sketch α cmp} {ys : List α}
    (hs : s.Sound) (hother : Summarizes other ys) (hk : s.k ≤ other.k)
    (hn : other.n < 2 * other.k) :
    ∃ events, s.merge other = .ok (.notes events (s.updateAll other.buffer.toList)) := by
  have hsound := hother.reachable.sound
  have hsize := hsound.size_eq_of_lt hn
  by_cases hzero : other.n = 0
  · rw [hzero, Array.size_eq_zero_iff] at hsize
    rw [merge_of_n_eq_zero s hzero, hsize]
    exact ⟨[], rfl⟩
  · have hreduced : s.reduced other.k = .done s := if_neg (Nat.not_lt.mpr hk)
    obtain ⟨events, habsorb⟩ := absorb_of_levels_eq_nil s (hsound.levels_eq_nil hn)
    obtain ⟨hleast, hgreatest⟩ := hother.bounds.mem_of_mem_extremes
    have hmem := fun y => (hother.buffer_perm hn).mem_iff (a := y)
    refine ⟨events, ?_⟩
    rw [merge_eq_ok hs.size hsound.size hzero, hreduced, done_bind, habsorb, notes_bind, bind_assoc]
    congr 2
    refine (bind_congr_of_mem fun t ht => ?_).trans (bind_done _)
    -- The count is the one that the items have led to, and the extremes are among them.
    have hcount : ({ t with n := s.n + other.n } : Sketch α cmp) = t := by
      rw [← hsize, ← Array.length_toList, ← n_of_mem_updateAll ht]
    rw [done_bind, hcount]
    exact congrArg done (meetExtremes_of_mem_updateAll ht (fun y hy => (hmem y).mpr (hleast y hy))
      fun y hy => (hmem y).mpr (hgreatest y hy))

end Sketch

/-- **Merging a sketch that has compacted nothing is to feed its items.**  If the other sketch
has no smaller block size and has compacted nothing, merging it leaves the very sketch, with
the very source, that feeding the items of its buffer in order does, however many times they
fill the buffer on the way. -/
theorem LiveSketch.merge_eq_updates [Std.TransCmp cmp] {s : LiveSketch α cmp ρ}
    {other : Sketch α cmp} {ys : List α} (hs : s.sketch.Reachable)
    (hother : Sketch.Summarizes other ys) (hk : s.sketch.k ≤ other.k)
    (hn : other.n < 2 * other.k) :
    ∃ events, s.merge other
      = .ok (other.buffer.toList.foldl (fun t x => (t.update x).1) s, events) := by
  obtain ⟨events, hmerge⟩ := hother.merge_eq_updateAll hs.sound hk hn
  refine ⟨events ++ (s.updateAll other.buffer.toList).2, ?_⟩
  rw [merge, hmerge, ← updateAll_eq_foldl]
  show Except.ok (become s.source _) = _
  rw [become, run_notes]
  rfl

/-- Seven items that fit into the buffer of one sketch fill that of another one twice. -/
theorem LiveSketch.merge_eq_updates_afterFive :
    Sketch.afterFive.Reachable
      ∧ Sketch.Summarizes ((Sketch.empty 4).pushAll [7, 3, 9, 1, 8, 2, 6] : Sketch ℕ compare)
        [7, 3, 9, 1, 8, 2, 6]
      ∧ ∃ events, (⟨Sketch.afterFive, XorShift.ofSeed 1⟩ : LiveSketch ℕ compare XorShift).merge
          ((Sketch.empty 4).pushAll [7, 3, 9, 1, 8, 2, 6])
        = .ok ([7, 3, 9, 1, 8, 2, 6].foldl (fun t x => (t.update x).1)
            ⟨Sketch.afterFive, XorShift.ofSeed 1⟩, events) := by
  have hroom : (Sketch.empty 4 : Sketch ℕ compare).buffer.size + [7, 3, 9, 1, 8, 2, 6].length
      < 2 * (Sketch.empty 4 : Sketch ℕ compare).k := by decide
  have hmem : (Sketch.empty 4 : Sketch ℕ compare).pushAll [7, 3, 9, 1, 8, 2, 6]
      ∈ (Sketch.empty 4 : Sketch ℕ compare).updateAll [7, 3, 9, 1, 8, 2, 6] := by
    rw [Sketch.updateAll_of_room hroom, mem_done]
  have hother := (Sketch.Summarizes.ofSize (k := 4) rfl).updateAll hmem
  refine ⟨Sketch.reachable_afterFive, hother, ?_⟩
  exact LiveSketch.merge_eq_updates (s := ⟨Sketch.afterFive, XorShift.ofSeed 1⟩)
    Sketch.reachable_afterFive hother (by decide) (by decide)

end QuantileSketch
