/-
What a sketch holds fits the number of items it stands for.

`s.StandsFor m` says that the block size is admissible, the buffer is not full, the
levels are regular, and what is held has the weight of `m` items; buffer and levels
are then laid out as `k` and `m` say (`StandsFor.buffer_size`, `StandsFor.pattern_eq`).

* `mem_update`, `mem_absorbBlocks_cons`, `mem_absorb`, `mem_merge` — what a step can
  lead to, every case of it;
* `updateAll_induction` — what holds after items of the stream, one after the other;
* `StandsFor.update`, `StandsFor.absorb`, `StandsFor.shrink` — a step adds to what the
  contents stand for what it takes in;
* `Sound` — the contents stand for `n` items, and there are extremes if `n` is not
  zero (`Sound.update`, `Sound.merge`).

Design notes: while a sketch takes in another one, its `n` is not the number of items
that its contents stand for, so that number is kept apart from `n`.
-/
import QuantileSketch.Proofs.Carry
import QuantileSketch.Sketch.Merge

open QuantileSketch.Randomized

namespace QuantileSketch

variable {α : Type} {cmp : α → α → Ordering}

/-- The smaller one of two block sizes is one of them. -/
theorem Admissible.min {k k' : ℕ} (hk : Admissible k) (hk' : Admissible k') :
    Admissible (min k k') := by
  rcases Nat.le_total k k' with hle | hle
  · rwa [Nat.min_eq_left hle]
  · rwa [Nat.min_eq_right hle]

/-- Of two admissible block sizes the greater one is the other one times a power of
two. -/
theorem Admissible.exists_eq_mul {k₁ k₂ : ℕ} (h₁ : Admissible k₁)
    (h₂ : Admissible k₂) (h : k₁ ≤ k₂) : ∃ e, k₂ = 2 ^ e * k₁ := by
  obtain ⟨a, rfl⟩ := h₁.2.2
  obtain ⟨b, rfl⟩ := h₂.2.2
  have hab : a ≤ b := (Nat.pow_le_pow_iff_right Nat.one_lt_two).mp h
  exact ⟨b - a, by rw [← Nat.pow_add, Nat.sub_add_cancel hab]⟩

theorem Admissible.exists_stride {k₁ k₂ : ℕ} (h₁ : Admissible k₁) (h₂ : Admissible k₂)
    (h : k₁ ≤ k₂) : ∃ e, k₂ = 2 ^ e * k₁ ∧ k₂ / k₁ = 2 ^ e := by
  obtain ⟨e, he⟩ := h₁.exists_eq_mul h₂ h
  exact ⟨e, he, by rw [he, Nat.mul_div_cancel _ h₁.pos]⟩

namespace Sketch

/-! ### What steps can lead to -/

theorem mem_settle {s s' : Sketch α cmp} {start : ℕ} {block : List α} :
    s' ∈ s.settle start block ↔
      ∃ levels ∈ Levels.carryAt cmp start s.levels block, s' = { s with levels } := by
  simp [settle]

theorem mem_compact {s s' : Sketch α cmp} :
    s' ∈ s.compact ↔
      ∃ offset : Fin 2, ∃ levels ∈ Levels.carryAt cmp 0 s.levels
          (everyNth 2 offset (sortBy cmp s.buffer.toList)),
        s' = { s with buffer := #[], levels } := by
  simp only [compact, mem_bind, mem_halve, mem_settle]
  constructor
  · rintro ⟨half, ⟨offset, rfl⟩, levels, hlevels, rfl⟩
    exact ⟨offset, levels, hlevels, rfl⟩
  · rintro ⟨offset, levels, hlevels, rfl⟩
    exact ⟨_, ⟨offset, rfl⟩, levels, hlevels, rfl⟩

theorem mem_update {s s' : Sketch α cmp} {x : α} :
    s' ∈ s.update x ↔
      (s.buffer.size + 1 ≠ 2 * s.k ∧ s' = s.push x) ∨
      (s.buffer.size + 1 = 2 * s.k ∧ s' ∈ (s.push x).compact) := by
  have hsize : (s.push x).buffer.size = s.buffer.size + 1 := Array.size_push _
  rw [update, hsize, show (s.push x).k = s.k from rfl]
  by_cases h : s.buffer.size + 1 = 2 * s.k
  · simp [h]
  · simp [h]

/-- What holds of a sketch, and goes on to hold after each item of the stream, holds after
all of them. -/
theorem updateAll_induction {motive : List α → Sketch α cmp → Prop} {s s' : Sketch α cmp}
    {xs : List α} (hs' : s' ∈ s.updateAll xs) (nil : motive [] s)
    (snoc : ∀ {ys t t' x}, motive ys t → t' ∈ t.update x → motive (ys ++ [x]) t') :
    motive xs s' := by
  -- The items seen so far are a prefix that grows from step to step.
  have hgen : ∀ ys t, motive ys t → s' ∈ t.updateAll xs → motive (ys ++ xs) s' := by
    clear hs' nil
    induction xs with
    | nil =>
      intro ys t ht hs'
      rw [updateAll, mem_done] at hs'
      rw [hs', List.append_nil]
      exact ht
    | cons x xs ih =>
      intro ys t ht hs'
      rw [updateAll, mem_bind] at hs'
      obtain ⟨t', ht', hs'⟩ := hs'
      have hrest := ih (ys ++ [x]) t' (snoc ht ht') hs'
      rwa [List.append_assoc] at hrest
  exact hgen [] s nil hs'

theorem mem_updateAll_cons {s s' : Sketch α cmp} {x : α} {xs : List α} :
    s' ∈ s.updateAll (x :: xs) ↔ ∃ t ∈ s.update x, s' ∈ t.updateAll xs := by
  rw [updateAll, mem_bind]

theorem everyNth_one (xs : List α) : everyNth 1 0 xs = xs := by
  rw [everyNth_eq]
  suffices h : ∀ start, everyNthFrom 1 0 start xs = xs from h 0
  induction xs with
  | nil => intro start; rfl
  | cons x xs ih =>
    intro start
    rw [everyNthFrom, if_pos (Nat.mod_one start), ih]

theorem mem_thin {stride : ℕ} (h : 0 < stride) {block thinned : List α} :
    thinned ∈ thin stride block ↔
      ∃ offset : Fin stride, thinned = everyNth stride offset block := by
  rw [thin]
  split
  · rfl
  · -- With stride `1` nothing is drawn, and everything is kept.
    obtain rfl : stride = 1 := by omega
    rw [mem_done]
    constructor
    · rintro rfl
      exact ⟨0, (everyNth_one _).symm⟩
    · rintro ⟨offset, rfl⟩
      rw [Subsingleton.elim offset 0]
      exact everyNth_one block

theorem mem_absorbBlocks_cons {s s' : Sketch α cmp} {stride shift level : ℕ} {block : List α}
    {blocks : List (ℕ × List α)} (h : 0 < stride) :
    s' ∈ s.absorbBlocks stride shift ((level, block) :: blocks) ↔
      ∃ offset : Fin stride, ∃ levels ∈ Levels.carryAt cmp (level + shift) s.levels
          (everyNth stride offset block),
        s' ∈ { s with levels }.absorbBlocks stride shift blocks := by
  simp only [absorbBlocks, mem_bind, mem_thin h, mem_settle]
  constructor
  · rintro ⟨thinned, ⟨offset, rfl⟩, t, ⟨levels, hlevels, rfl⟩, hs'⟩
    exact ⟨offset, levels, hlevels, hs'⟩
  · rintro ⟨offset, levels, hlevels, hs'⟩
    exact ⟨_, ⟨offset, rfl⟩, _, ⟨levels, hlevels, rfl⟩, hs'⟩

theorem mem_absorb {s s' other : Sketch α cmp} :
    s' ∈ s.absorb other ↔
      ∃ t ∈ s.updateAll other.buffer.toList, ∃ u ∈ t.absorbBlocks (other.k / s.k)
          (other.k / s.k).log2 (Levels.occupied other.levels),
        s' = { u with n := s.n + other.n } := by
  simp [absorb]

/-! ### What the contents stand for -/

/-- The contents of the sketch stand for `m` items. -/
structure StandsFor (s : Sketch α cmp) (m : ℕ) : Prop where
  size : Admissible s.k
  room : s.buffer.size < 2 * s.k
  regular : Levels.Regular cmp s.k s.levels
  count : m = s.buffer.size + 2 * s.k * s.pattern

theorem StandsFor.pattern_eq {s : Sketch α cmp} {m : ℕ} (h : s.StandsFor m) :
    s.pattern = occupancy s.k m := by
  have hroom := h.room
  rw [occupancy, h.count, Nat.add_mul_div_left _ _ (by omega), Nat.div_eq_of_lt hroom,
    Nat.zero_add]

theorem StandsFor.buffer_size {s : Sketch α cmp} {m : ℕ} (h : s.StandsFor m) :
    s.buffer.size = bufferCount s.k m := by
  rw [bufferCount, h.count, Nat.add_mul_mod_self_left, Nat.mod_eq_of_lt h.room]

/-- A sketch whose contents are gone stands for nothing. -/
theorem StandsFor.cleared (s : Sketch α cmp) {k : ℕ} (h : Admissible k) :
    ({ s with k, n := 0, buffer := #[], levels := [] } : Sketch α cmp).StandsFor 0 where
  size := h
  room := Nat.mul_pos Nat.two_pos h.pos
  regular := Levels.regular_nil
  count := rfl

/-- A block added at a level stands for as many items as its items do there. -/
theorem StandsFor.settle [Std.TransCmp cmp] {s : Sketch α cmp} {m start : ℕ} {block : List α}
    {levels : List (List α)} (h : s.StandsFor m) (hlen : block.length = s.k)
    (hblock : Sorted cmp block) (hlevels : levels ∈ Levels.carryAt cmp start s.levels block) :
    ({ s with levels } : Sketch α cmp).StandsFor (m + levelWeight start * s.k) where
  size := h.size
  room := h.room
  regular := (Levels.carried_of_mem hlevels).regular h.size.pos hlen hblock h.regular
  count := by
    have hpattern := (Levels.carried_of_mem hlevels).pattern_eq h.size.pos hlen h.regular
    show _ = s.buffer.size + 2 * s.k * Levels.pattern levels
    rw [hpattern, h.count, levelWeight_eq, pattern]
    ring

theorem length_half_buffer {s : Sketch α cmp} (hfull : s.buffer.size = 2 * s.k)
    (offset : Fin 2) : (everyNth 2 offset (sortBy cmp s.buffer.toList)).length = s.k := by
  refine length_everyNth_of_eq_mul offset.isLt ?_
  rw [length_sortBy, Array.length_toList, hfull]

/-- Turning a full buffer into a block keeps what the contents stand for. -/
theorem StandsFor.compact [Std.TransCmp cmp] {s s' : Sketch α cmp} {m : ℕ}
    (h : ({ s with buffer := #[] } : Sketch α cmp).StandsFor m) (hfull : s.buffer.size = 2 * s.k)
    (hs' : s' ∈ s.compact) : s'.StandsFor (m + s.buffer.size) := by
  obtain ⟨offset, levels, hlevels, rfl⟩ := mem_compact.mp hs'
  have hlen := length_half_buffer hfull offset
  have hsorted := (sorted_sortBy cmp s.buffer.toList).everyNth 2 offset
  have hstands := h.settle hlen hsorted hlevels
  rw [hfull]
  simpa [levelWeight_eq] using hstands

/-- With its buffer gone, a sketch stands for what its levels do. -/
theorem StandsFor.flushed {s : Sketch α cmp} {m : ℕ} (h : s.StandsFor m) (x : α) :
    ({ s.push x with buffer := #[] } : Sketch α cmp).StandsFor (2 * s.k * s.pattern) where
  size := h.size
  room := Nat.mul_pos Nat.two_pos h.size.pos
  regular := h.regular
  count := (Nat.zero_add _).symm

theorem StandsFor.update [Std.TransCmp cmp] {s s' : Sketch α cmp} {m : ℕ} {x : α}
    (h : s.StandsFor m) (hs' : s' ∈ s.update x) : s'.StandsFor (m + 1) := by
  have hroom := h.room
  have hsize : (s.push x).buffer.size = s.buffer.size + 1 := Array.size_push _
  rcases mem_update.mp hs' with ⟨hfull, rfl⟩ | ⟨hfull, hs'⟩
  · refine ⟨h.size, ?_, h.regular, ?_⟩
    · show (s.push x).buffer.size < 2 * s.k
      omega
    · show m + 1 = (s.push x).buffer.size + 2 * s.k * s.pattern
      rw [hsize, h.count]
      omega
  · -- The item fills the buffer, which becomes a block.
    have hstands := (h.flushed x).compact (hsize.trans hfull) hs'
    rw [hsize] at hstands
    convert hstands using 1
    rw [h.count]
    omega

theorem StandsFor.updateAll [Std.TransCmp cmp] {s s' : Sketch α cmp} {m : ℕ} {xs : List α}
    (h : s.StandsFor m) (hs' : s' ∈ s.updateAll xs) : s'.StandsFor (m + xs.length) := by
  refine updateAll_induction (motive := fun ys t => t.StandsFor (m + ys.length)) hs' h ?_
  intro ys t t' x ht ht'
  rw [List.length_append, List.length_singleton, ← Nat.add_assoc]
  exact ht.update ht'

/-! ### What stays as it is -/

theorem exists_of_mem_update {s s' : Sketch α cmp} {x : α} (h : s' ∈ s.update x) :
    ∃ buffer levels, s' = { s.push x with buffer, levels } := by
  rcases mem_update.mp h with ⟨-, rfl⟩ | ⟨-, h⟩
  · exact ⟨_, _, rfl⟩
  · obtain ⟨offset, levels, -, rfl⟩ := mem_compact.mp h
    exact ⟨#[], levels, rfl⟩

theorem size_of_mem_update {s s' : Sketch α cmp} {x : α} (h : s' ∈ s.update x) : s'.k = s.k := by
  obtain ⟨buffer, levels, rfl⟩ := exists_of_mem_update h
  rfl

theorem size_of_mem_updateAll {s s' : Sketch α cmp} {xs : List α} (h : s' ∈ s.updateAll xs) :
    s'.k = s.k :=
  updateAll_induction (motive := fun _ t => t.k = s.k) h rfl fun ht ht' =>
    (size_of_mem_update ht').trans ht

theorem exists_of_mem_absorbBlocks {s s' : Sketch α cmp} {stride shift : ℕ}
    {blocks : List (ℕ × List α)} (hstride : 0 < stride)
    (h : s' ∈ s.absorbBlocks stride shift blocks) : ∃ levels, s' = { s with levels } := by
  induction blocks generalizing s with
  | nil =>
    rw [absorbBlocks, mem_done] at h
    exact ⟨s.levels, h⟩
  | cons b blocks ih =>
    obtain ⟨offset, levels, -, hs'⟩ := (mem_absorbBlocks_cons hstride).mp h
    obtain ⟨levels', rfl⟩ := ih hs'
    exact ⟨levels', rfl⟩

/-! ### Taking in another sketch -/

/-- The number of items of the stream that blocks at levels stand for. -/
def blocksWeight (blocks : List (ℕ × List α)) : ℕ :=
  (blocks.map fun b => levelWeight b.1 * b.2.length).sum

theorem StandsFor.absorbBlocks [Std.TransCmp cmp] {s s' : Sketch α cmp} {m e : ℕ}
    {blocks : List (ℕ × List α)} (h : s.StandsFor m)
    (hblocks : ∀ b ∈ blocks, b.2.length = 2 ^ e * s.k ∧ Sorted cmp b.2)
    (hs' : s' ∈ s.absorbBlocks (2 ^ e) e blocks) : s'.StandsFor (m + blocksWeight blocks) := by
  induction blocks generalizing s m with
  | nil =>
    rw [Sketch.absorbBlocks, mem_done] at hs'
    rw [hs']
    exact h
  | cons b blocks ih =>
    obtain ⟨offset, levels, hlevels, hs'⟩ :=
      (mem_absorbBlocks_cons (Nat.two_pow_pos e)).mp hs'
    obtain ⟨hlen, hsorted⟩ := hblocks b List.mem_cons_self
    have hthin := length_everyNth_of_eq_mul offset.isLt hlen
    have hstands := ih (h.settle hthin (hsorted.everyNth _ _) hlevels)
      (fun c hc => hblocks c (List.mem_cons_of_mem _ hc)) hs'
    convert hstands using 1
    rw [blocksWeight, List.map_cons, List.sum_cons, hlen, blocksWeight, levelWeight_eq,
      levelWeight_eq]
    ring

/-- The blocks of a sketch stand for all that is not in its buffer. -/
theorem StandsFor.blocksWeight_occupied {s : Sketch α cmp} {m : ℕ} (h : s.StandsFor m) :
    m = s.buffer.size + blocksWeight (Levels.occupied s.levels) := by
  have hsum := Levels.sum_occupied (f := List.length) rfl s.levels
  rw [blocksWeight, hsum, h.regular.holds.weigh_length h.size.pos]
  exact h.count

/-- The blocks of a sketch have `2 ^ e` times the size of those of a sketch that has only
taken in items since it was `k`. -/
theorem StandsFor.occupied {s t other : Sketch α cmp} {m e : ℕ} {xs : List α}
    (h : other.StandsFor m) (he : other.k = 2 ^ e * s.k) (ht : t ∈ s.updateAll xs) :
    ∀ b ∈ Levels.occupied other.levels, b.2.length = 2 ^ e * t.k ∧ Sorted cmp b.2 := by
  intro b hb
  rw [size_of_mem_updateAll ht, ← he]
  exact h.regular.occupied hb

theorem StandsFor.absorb [Std.TransCmp cmp] {s s' other : Sketch α cmp} {m m' : ℕ}
    (h : s.StandsFor m) (hother : other.StandsFor m') (hle : s.k ≤ other.k)
    (hs' : s' ∈ s.absorb other) : s'.StandsFor (m + m') ∧ s'.k = s.k ∧ s'.n = s.n + other.n := by
  obtain ⟨e, he, hstride⟩ := h.size.exists_stride hother.size hle
  obtain ⟨t, ht, u, hu, rfl⟩ := mem_absorb.mp hs'
  rw [hstride, Nat.log2_two_pow] at hu
  have hstands := (h.updateAll ht).absorbBlocks (hother.occupied he ht) hu
  rw [Array.length_toList, Nat.add_assoc, ← hother.blocksWeight_occupied] at hstands
  have hsize := size_of_mem_updateAll ht
  obtain ⟨levels, rfl⟩ := exists_of_mem_absorbBlocks (Nat.two_pow_pos e) hu
  exact ⟨⟨hstands.size, hstands.room, hstands.regular, hstands.count⟩, hsize, rfl⟩

theorem StandsFor.shrink [Std.TransCmp cmp] {s s' : Sketch α cmp} {m k : ℕ}
    (h : s.StandsFor m) (hk : Admissible k) (hle : k ≤ s.k) (hs' : s' ∈ s.shrink k) :
    s'.StandsFor m ∧ s'.k = k ∧ s'.n = s.n := by
  obtain ⟨hstands, hsize, hn⟩ := (StandsFor.cleared s hk).absorb h hle hs'
  rw [Nat.zero_add] at hstands hn
  exact ⟨hstands, hsize, hn⟩

/-- The sketch brought down to a block size, unless its own is no greater. -/
def reduced (s : Sketch α cmp) (k : ℕ) : Randomized (Sketch α cmp) :=
  if k < s.k then s.shrink k else .done s

theorem StandsFor.reduced [Std.TransCmp cmp] {s s' : Sketch α cmp} {m k : ℕ}
    (h : s.StandsFor m) (hk : Admissible k) (hs' : s' ∈ s.reduced k) :
    s'.StandsFor m ∧ s'.k = min s.k k ∧ s'.n = s.n := by
  rw [Sketch.reduced] at hs'
  split at hs'
  · rename_i hlt
    rw [Nat.min_eq_right (Nat.le_of_lt hlt)]
    exact h.shrink hk (Nat.le_of_lt hlt) hs'
  · rename_i hge
    rw [mem_done] at hs'
    rw [hs', Nat.min_eq_left (Nat.le_of_not_lt hge)]
    exact ⟨h, rfl, rfl⟩

theorem relatedSizes {k₁ k₂ : ℕ} (h₁ : Admissible k₁) (h₂ : Admissible k₂) :
    RelatedSizes k₁ k₂ := by
  rcases Nat.le_total k₁ k₂ with h | h
  · obtain ⟨e, rfl⟩ := h₁.exists_eq_mul h₂ h
    rw [RelatedSizes, Nat.max_eq_right h, Nat.min_eq_left h, Nat.mul_mod_left,
      Nat.mul_div_cancel _ h₁.pos]
    exact ⟨rfl, e, rfl⟩
  · obtain ⟨e, rfl⟩ := h₂.exists_eq_mul h₁ h
    rw [RelatedSizes, Nat.max_eq_left h, Nat.min_eq_right h, Nat.mul_mod_left,
      Nat.mul_div_cancel _ h₂.pos]
    exact ⟨rfl, e, rfl⟩

theorem merge_of_n_eq_zero (s : Sketch α cmp) {other : Sketch α cmp} (h : other.n = 0) :
    s.merge other = .ok (.done s) := by
  rw [merge, isEmpty, if_pos (by simpa using h)]

/-- Admissible block sizes are related, so merging does not fail. -/
theorem merge_eq_ok {s other : Sketch α cmp} (hs : Admissible s.k) (ho : Admissible other.k)
    (hn : other.n ≠ 0) :
    s.merge other = .ok ((s.reduced other.k).bind fun t =>
      (t.absorb other).bind fun merged => .done (merged.meetExtremes other)) := by
  rw [merge, isEmpty, if_neg (by simpa using hn), if_pos (relatedSizes hs ho)]
  rfl

theorem mem_merge {s s' other : Sketch α cmp} {merged : Randomized (Sketch α cmp)}
    (hs : Admissible s.k) (ho : Admissible other.k) (hn : other.n ≠ 0)
    (hmerge : s.merge other = .ok merged) :
    s' ∈ merged ↔
      ∃ t ∈ s.reduced other.k, ∃ u ∈ t.absorb other, s' = u.meetExtremes other := by
  rw [merge_eq_ok hs ho hn, Except.ok.injEq] at hmerge
  simp only [← hmerge, mem_bind, mem_done]

theorem StandsFor.merge [Std.TransCmp cmp] {s s' other : Sketch α cmp} {m m' : ℕ}
    {merged : Randomized (Sketch α cmp)} (h : s.StandsFor m) (hother : other.StandsFor m')
    (hn : other.n ≠ 0) (hmerge : s.merge other = .ok merged) (hs' : s' ∈ merged) :
    s'.StandsFor (m + m') ∧ s'.k = min s.k other.k ∧ s'.n = s.n + other.n := by
  obtain ⟨t, ht, u, hu, rfl⟩ := (mem_merge h.size hother.size hn hmerge).mp hs'
  -- The target is brought down to the smaller block size before it takes in the source.
  obtain ⟨hreduced, hk, hreducedN⟩ := h.reduced hother.size ht
  have hle : t.k ≤ other.k := hk ▸ Nat.min_le_right _ _
  obtain ⟨hstands, hsize, habsorbedN⟩ := hreduced.absorb hother hle hu
  refine ⟨⟨hstands.size, hstands.room, hstands.regular, hstands.count⟩, hsize.trans hk, ?_⟩
  rw [← hreducedN]
  exact habsorbedN

/-! ### Sound sketches -/

/-- The parts of a sketch are those that its block size and its number of items call
for. -/
structure Sound (s : Sketch α cmp) : Prop where
  size : Admissible s.k
  buffer : s.buffer.size = bufferCount s.k s.n
  levels : Levels.LaidOut cmp s.k (occupancy s.k s.n) s.levels
  least : s.least.isSome ↔ 0 < s.n
  greatest : s.greatest.isSome ↔ 0 < s.n

theorem Sound.standsFor {s : Sketch α cmp} (h : s.Sound) : s.StandsFor s.n := by
  have hk := h.size.pos
  refine ⟨h.size, ?_, h.levels.regular hk, ?_⟩
  · rw [h.buffer]
    exact Nat.mod_lt _ (by omega)
  · rw [h.buffer, pattern, h.levels.holds.pattern_eq hk, bufferCount, occupancy, Nat.mod_add_div]

theorem StandsFor.sound {s : Sketch α cmp} (h : s.StandsFor s.n)
    (hleast : s.least.isSome ↔ 0 < s.n) (hgreatest : s.greatest.isSome ↔ 0 < s.n) : s.Sound where
  size := h.size
  buffer := h.buffer_size
  levels := h.pattern_eq ▸ h.regular.laidOut
  least := hleast
  greatest := hgreatest

theorem Sound.empty {k : ℕ} (h : Admissible k) : (empty k : Sketch α cmp).Sound :=
  (StandsFor.cleared (Sketch.empty k) h).sound (by simp [Sketch.empty]) (by simp [Sketch.empty])

theorem Sound.eq_empty {s : Sketch α cmp} (h : s.Sound) (hn : s.n = 0) : s = .empty s.k := by
  have hbuffer : s.buffer = #[] := by
    rw [← Array.size_eq_zero_iff, h.buffer, hn, bufferCount, Nat.zero_mod]
  have hlevels : s.levels = [] := by
    rw [← List.length_eq_zero_iff, h.levels.length, hn, occupancy, Nat.zero_div]
    rfl
  have hleast : s.least = none := by
    rw [← Option.not_isSome_iff_eq_none, h.least]
    omega
  have hgreatest : s.greatest = none := by
    rw [← Option.not_isSome_iff_eq_none, h.greatest]
    omega
  rcases s with ⟨k, n, buffer, levels, least, greatest⟩
  subst hn hbuffer hlevels hleast hgreatest
  rfl

/-- A sketch that has seen something has extremes. -/
theorem Sound.exists_extremes {s : Sketch α cmp} (h : s.Sound) (hn : 0 < s.n) :
    ∃ least greatest, s.least = some least ∧ s.greatest = some greatest := by
  obtain ⟨least, hleast⟩ := Option.isSome_iff_exists.mp (h.least.mpr hn)
  obtain ⟨greatest, hgreatest⟩ := Option.isSome_iff_exists.mp (h.greatest.mpr hn)
  exact ⟨least, greatest, hleast, hgreatest⟩

theorem isSome_lesser (known : Option α) (x : α) : (lesser cmp known x).isSome := by
  cases known with
  | none => rfl
  | some y =>
    rw [lesser]
    split <;> rfl

theorem isSome_greater (known : Option α) (x : α) : (greater cmp known x).isSome := by
  cases known with
  | none => rfl
  | some y =>
    rw [greater]
    split <;> rfl

theorem Sound.update [Std.TransCmp cmp] {s s' : Sketch α cmp} {x : α} (h : s.Sound)
    (hs' : s' ∈ s.update x) : s'.Sound := by
  have hstands := h.standsFor.update hs'
  obtain ⟨buffer, levels, rfl⟩ := exists_of_mem_update hs'
  exact hstands.sound (iff_of_true (isSome_lesser _ _) (Nat.succ_pos _))
    (iff_of_true (isSome_greater _ _) (Nat.succ_pos _))

theorem Sound.updateAll [Std.TransCmp cmp] {s s' : Sketch α cmp} {xs : List α} (h : s.Sound)
    (hs' : s' ∈ s.updateAll xs) : s'.Sound :=
  updateAll_induction (motive := fun _ t => t.Sound) hs' h fun ht ht' => ht.update ht'

theorem Sound.merge [Std.TransCmp cmp] {s s' other : Sketch α cmp}
    {merged : Randomized (Sketch α cmp)} (h : s.Sound) (hother : other.Sound)
    (hmerge : s.merge other = .ok merged) (hs' : s' ∈ merged) : s'.Sound := by
  by_cases hn : other.n = 0
  · rw [merge_of_n_eq_zero s hn, Except.ok.injEq] at hmerge
    subst hmerge
    rw [mem_done] at hs'
    exact hs' ▸ h
  · obtain ⟨hstands, -, hsum⟩ := h.standsFor.merge hother.standsFor hn hmerge hs'
    have hpos : 0 < s'.n := by omega
    obtain ⟨least, greatest, hleast, hgreatest⟩ := hother.exists_extremes (Nat.pos_of_ne_zero hn)
    obtain ⟨t, -, u, -, rfl⟩ := (mem_merge h.size hother.size hn hmerge).mp hs'
    rw [← hsum] at hstands
    -- The source has extremes, so the extremes of both are there.
    refine hstands.sound (iff_of_true ?_ hpos) (iff_of_true ?_ hpos)
    · rw [meetExtremes, hleast]
      exact isSome_lesser _ _
    · rw [meetExtremes, hgreatest]
      exact isSome_greater _ _

end Sketch

end QuantileSketch
