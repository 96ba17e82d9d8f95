/-
What a sketch retains comes from its stream.

Items move through sorts, merges, halvings and copies of buffers and levels on their way
up, and none of these makes an item out of nothing or keeps one twice.  So the items that a
sketch retains, as a multiset, are part of what it took in:

* `Levels.Carried.flatten_le` — adding a block to levels;
* `Sketch.held` — the items in buffer and levels, to which an operation adds no more than it
  takes in (`held_update_le`, `held_absorb_le`, `held_reduced_le`);
* `Summarizes.held_le` — after any history, the items held are part of the stream.

Design notes: lists are compared as multisets, because sorting and merging move items about;
each step is then a sum of parts that are bounded one by one.
-/
import QuantileSketch.Proofs.RankError
import QuantileSketch.Random.XorShift
import Mathlib.Data.Multiset.AddSub
import Mathlib.Tactic.Abel

open QuantileSketch.Randomized

namespace QuantileSketch

variable {α : Type} {cmp : α → α → Ordering}

/-! ### Blocks -/

theorem everyNth_le (stride offset : ℕ) (xs : List α) :
    (everyNth stride offset xs : Multiset α) ≤ xs :=
  Multiset.coe_le.mpr (everyNth_sublist stride offset xs).subperm

theorem sortBy_coe (xs : List α) : (sortBy cmp xs : Multiset α) = xs :=
  Multiset.coe_eq_coe.mpr (sortBy_perm cmp xs)

theorem subset_append_of_coe_le {xs ys zs : List α} (h : (xs : Multiset α) ≤ ys + zs) :
    xs ⊆ ys ++ zs := by
  rw [Multiset.coe_add] at h
  exact Multiset.coe_subset.mp (Multiset.subset_of_le h)

/-- Half of two blocks is part of both of them. -/
theorem half_mergeBy_le (offset : Fin 2) (resident block : List α) :
    (everyNth 2 offset (mergeBy cmp resident block) : Multiset α) ≤ resident + block :=
  calc (everyNth 2 offset (mergeBy cmp resident block) : Multiset α)
      ≤ mergeBy cmp resident block := everyNth_le _ _ _
    _ = ((resident ++ block : List α) : Multiset α) :=
        Multiset.coe_eq_coe.mpr (mergeBy_perm cmp resident block)
    _ = resident + block := (Multiset.coe_add resident block).symm

/-- Adding a block to levels leaves no more than what was in both. -/
theorem Levels.Carried.flatten_le {start : ℕ} {levels out : List (List α)} {block : List α}
    (h : Carried cmp start levels block out) :
    (out.flatten : Multiset α) ≤ levels.flatten + block := by
  induction h with
  | grow block => simp
  | settle levels block =>
    rw [List.flatten_cons, List.flatten_cons, List.nil_append, ← Multiset.coe_add, add_comm]
  | @carry resident block levels out offset hne h ih =>
    calc (([] :: out).flatten : Multiset α)
        ≤ levels.flatten + everyNth 2 offset (mergeBy cmp resident block) := ih
      _ ≤ levels.flatten + (resident + block) := by
          gcongr
          exact half_mergeBy_le offset resident block
      _ = (resident :: levels).flatten + block := by
          rw [List.flatten_cons, ← Multiset.coe_add]
          abel
  | pad h ih => exact ih
  | skip level h ih =>
    rw [List.flatten_cons, List.flatten_cons, ← Multiset.coe_add, ← Multiset.coe_add, add_assoc]
    gcongr

namespace Sketch

/-! ### What a sketch holds -/

/-- The items in the buffer and the levels. -/
def held (s : Sketch α cmp) : List α := s.buffer.toList ++ s.levels.flatten

theorem mem_held {s : Sketch α cmp} {x : α} :
    x ∈ s.held ↔ x ∈ s.buffer.toList ∨ x ∈ s.levels.flatten := List.mem_append

theorem held_coe (s : Sketch α cmp) :
    (s.held : Multiset α) = s.buffer.toList + s.levels.flatten :=
  (Multiset.coe_add _ _).symm

theorem held_push (s : Sketch α cmp) (x : α) :
    ((s.push x).held : Multiset α) = s.held + [x] := by
  rw [held_coe, held_coe]
  show ((s.buffer.push x).toList : Multiset α) + s.levels.flatten = _
  rw [Array.toList_push, ← Multiset.coe_add]
  abel

theorem held_compact_le {s s' : Sketch α cmp} (h : s' ∈ s.compact) :
    (s'.held : Multiset α) ≤ s.held := by
  obtain ⟨offset, levels, hlevels, rfl⟩ := mem_compact.mp h
  calc (levels.flatten : Multiset α)
      ≤ s.levels.flatten + everyNth 2 offset (sortBy cmp s.buffer.toList) :=
        (Levels.carried_of_mem hlevels).flatten_le
    _ ≤ s.levels.flatten + sortBy cmp s.buffer.toList := by
        gcongr
        exact everyNth_le _ _ _
    _ = s.held := by rw [sortBy_coe, held_coe, add_comm]

theorem held_update_le {s s' : Sketch α cmp} {x : α} (h : s' ∈ s.update x) :
    (s'.held : Multiset α) ≤ s.held + [x] := by
  rw [← held_push]
  rcases mem_update.mp h with ⟨-, rfl⟩ | ⟨-, h⟩
  · exact le_refl _
  · exact held_compact_le h

theorem held_updateAll_le {s s' : Sketch α cmp} {xs : List α} (h : s' ∈ s.updateAll xs) :
    (s'.held : Multiset α) ≤ s.held + xs := by
  refine updateAll_induction (motive := fun ys t =>
    (t.held : Multiset α) ≤ (s.held : Multiset α) + (ys : Multiset α)) h ?_ ?_
  · simp
  · intro ys t t' x ht ht'
    calc (t'.held : Multiset α) ≤ t.held + [x] := held_update_le ht'
      _ ≤ s.held + ys + [x] := by gcongr
      _ = s.held + (ys ++ [x] : List α) := by rw [← Multiset.coe_add, add_assoc]

theorem held_absorbBlocks_le {s s' : Sketch α cmp} {stride shift : ℕ} (hstride : 0 < stride)
    {blocks : List (ℕ × List α)} (h : s' ∈ s.absorbBlocks stride shift blocks) :
    (s'.held : Multiset α) ≤ s.held + (blocks.map Prod.snd).flatten := by
  induction blocks generalizing s with
  | nil =>
    rw [absorbBlocks, mem_done] at h
    rw [h]
    simp
  | cons b blocks ih =>
    obtain ⟨offset, levels, hlevels, hs'⟩ := (mem_absorbBlocks_cons hstride).mp h
    calc (s'.held : Multiset α)
        ≤ s.buffer.toList + levels.flatten + (blocks.map Prod.snd).flatten := by
          rw [Multiset.coe_add]
          exact ih hs'
      _ ≤ s.buffer.toList + (s.levels.flatten + b.2) + (blocks.map Prod.snd).flatten := by
          gcongr
          refine (Levels.carried_of_mem hlevels).flatten_le.trans ?_
          gcongr
          exact everyNth_le _ _ _
      _ = s.held + ((b :: blocks).map Prod.snd).flatten := by
          rw [held_coe, List.map_cons, List.flatten_cons, ← Multiset.coe_add]
          abel

/-- Taking in another sketch adds no more than what that one holds. -/
theorem held_absorb_le {s s' other : Sketch α cmp} (hstride : 0 < other.k / s.k)
    (h : s' ∈ s.absorb other) : (s'.held : Multiset α) ≤ s.held + other.held := by
  obtain ⟨t, ht, u, hu, rfl⟩ := mem_absorb.mp h
  have hblocks := held_absorbBlocks_le hstride hu
  rw [Levels.occupied, Levels.flatten_occupiedFrom] at hblocks
  calc (u.held : Multiset α) ≤ t.held + other.levels.flatten := hblocks
    _ ≤ s.held + other.buffer.toList + other.levels.flatten := by
        gcongr
        exact held_updateAll_le ht
    _ = s.held + other.held := by rw [held_coe other, add_assoc]

/-- A sketch that is fed its own contents again holds no more than before. -/
theorem held_reduced_le {s s' : Sketch α cmp} {k : ℕ} (hk : Admissible k)
    (h : s' ∈ s.reduced k) : (s'.held : Multiset α) ≤ s.held := by
  rw [Sketch.reduced] at h
  split at h
  · rename_i hlt
    have hle := held_absorb_le (Nat.div_pos (Nat.le_of_lt hlt) hk.pos) h
    rwa [show ({ s with k, n := 0, buffer := #[], levels := [] } : Sketch α cmp).held = [] from rfl,
      Multiset.coe_nil, zero_add] at hle
  · rw [mem_done.mp h]

theorem Sound.held_merge_le [Std.TransCmp cmp] {s s' other : Sketch α cmp}
    {merged : Randomized (Sketch α cmp)} (hs : s.Sound) (hother : other.Sound)
    (hmerge : s.merge other = .ok merged) (h : s' ∈ merged) :
    (s'.held : Multiset α) ≤ s.held + other.held := by
  by_cases hn : other.n = 0
  · rw [merge_of_n_eq_zero s hn, Except.ok.injEq] at hmerge
    subst hmerge
    rw [mem_done.mp h]
    exact Multiset.le_add_right _ _
  · obtain ⟨t, ht, u, hu, rfl⟩ := (mem_merge hs.size hother.size hn hmerge).mp h
    obtain ⟨hstands, hk, -⟩ := hs.standsFor.reduced hother.size ht
    have hstride : 0 < other.k / t.k :=
      Nat.div_pos (hk ▸ Nat.min_le_right _ _) hstands.size.pos
    calc (u.held : Multiset α) ≤ t.held + other.held := held_absorb_le hstride hu
      _ ≤ s.held + other.held := by
          gcongr
          exact held_reduced_le hother.size ht

theorem held_rewritten (s : Sketch α cmp) (ordered : Bool) :
    ((s.rewritten ordered).held : Multiset α) = s.held := by
  have hbuffer : ((s.writtenBuffer ordered).toArray.toList : Multiset α) = s.buffer.toList :=
    Multiset.coe_eq_coe.mpr (writtenBuffer_perm ordered s)
  rw [held_coe, held_coe, ← hbuffer]
  rfl

/-- **Nothing is invented, and nothing is kept twice.**  Whatever updates, merges, resets and
images a sketch came about by, the items in its buffer and its levels are, as a multiset,
part of the stream that it stands for. -/
theorem Summarizes.held_le [Std.TransCmp cmp] {s : Sketch α cmp} {xs : List α}
    (h : Summarizes s xs) : (s.held : Multiset α) ≤ xs := by
  induction h with
  | ofSize h =>
    obtain ⟨-, rfl⟩ := admissible_of_ofSize? h
    exact le_refl _
  | update _ h ih =>
    rw [← Multiset.coe_add]
    refine (held_update_le h).trans ?_
    gcongr
  | merge hs hother hmerge h ih ihother =>
    rw [← Multiset.coe_add]
    exact (hs.reachable.sound.held_merge_le hother.reachable.sound hmerge h).trans
      (add_le_add ih ihother)
  | reset => exact le_refl _
  | @reload _ _ s s' xs ordered hs hitems hn h ih =>
    rw [hs.reachable.sound.decode?_encode hitems hn, Except.ok.injEq] at h
    rw [← h, held_rewritten]
    exact ih

/-- A sketch that was merged with a copy of itself holds no item more often than the stream,
seen twice, has it. -/
theorem Summarizes.held_le_afterFive :
    ∃ merged, afterFive.merge afterFive = .ok merged ∧ ∃ s' ∈ merged,
      Summarizes s' ([1, 2, 3, 4, 5] ++ [1, 2, 3, 4, 5])
        ∧ (s'.held : Multiset ℕ) ≤ ([1, 2, 3, 4, 5] ++ [1, 2, 3, 4, 5] : List ℕ) := by
  have hmerge : ∃ merged, afterFive.merge afterFive = .ok merged := ⟨_, rfl⟩
  obtain ⟨merged, hmerge⟩ := hmerge
  have hmem := run_value_mem merged (XorShift.ofSeed 1)
  have hsummarizes := summarizes_afterFive.merge summarizes_afterFive hmerge hmem
  exact ⟨merged, hmerge, _, hmem, hsummarizes, Summarizes.held_le hsummarizes⟩

end Sketch

end QuantileSketch
