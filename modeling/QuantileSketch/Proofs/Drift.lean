/-
How far steps move the weight of items.

A step is to add to the weight of the items with a property what it takes in with that
property, but halving and thinning out blocks leave an error.  `Drift P s t gain credit`
says that from `s` to `t` the weight grows by `gain`, up to an error which the growth of
`errorBound` pays for, with `credit` to spare:

* `Drift.trans` — errors of steps in a row add up, and so does what pays for them;
* `StandsFor.drift_update`, `StandsFor.drift_absorb`, `StandsFor.drift_merge` — the
  drift of the steps, for an initial property.

Design notes: an item of a block that is taken in at level `i` brings `(i + 1) * 2 ^ i`
with it, which is what it accounted for in the other sketch; this is why merging adds
up the error bounds of both sketches and no more.
-/
import QuantileSketch.Proofs.Histogram

open QuantileSketch.Randomized

namespace QuantileSketch.Sketch

variable {α : Type} {cmp : α → α → Ordering} {P : α → Bool}

/-! ### Errors in a row -/

/-- The weight of the items with the property grows by `gain`, up to an error for which
the growth of `errorBound` pays, with `credit` to spare. -/
def Drift (P : α → Bool) (s t : Sketch α cmp) (gain credit : ℕ) : Prop :=
  |(t.weightOf P : ℤ) - s.weightOf P - gain| + errorBound s.pattern + credit
    ≤ errorBound t.pattern

theorem Drift.refl (s : Sketch α cmp) : Drift P s s 0 0 := by
  simp [Drift]

theorem Drift.trans {s t u : Sketch α cmp} {gain gain' credit credit' : ℕ}
    (h : Drift P s t gain credit) (h' : Drift P t u gain' credit') :
    Drift P s u (gain + gain') (credit + credit') := by
  have hsum := abs_add_le ((t.weightOf P : ℤ) - s.weightOf P - gain)
    ((u.weightOf P : ℤ) - t.weightOf P - gain')
  have heq : (t.weightOf P : ℤ) - s.weightOf P - gain + (u.weightOf P - t.weightOf P - gain')
      = u.weightOf P - s.weightOf P - (gain + gain' : ℕ) := by
    push_cast
    ring
  rw [heq] at hsum
  rw [Drift] at h h' ⊢
  push_cast at h h' hsum ⊢
  linarith

/-- An error of the gain itself is paid for with credit. -/
theorem Drift.adjust {s t : Sketch α cmp} {gain gain' credit credit' : ℕ}
    (h : Drift P s t gain credit) (hle : |(gain : ℤ) - gain'| + credit' ≤ credit) :
    Drift P s t gain' credit' := by
  have hsum := abs_add_le ((t.weightOf P : ℤ) - s.weightOf P - gain) ((gain : ℤ) - gain')
  have heq : (t.weightOf P : ℤ) - s.weightOf P - gain + (gain - gain')
      = t.weightOf P - s.weightOf P - gain' := by ring
  rw [heq] at hsum
  rw [Drift] at h ⊢
  linarith

/-- What the weight before lacks is as good as gained. -/
theorem Drift.of_weightOf_eq {s s₀ t : Sketch α cmp} {gain gain' credit : ℕ}
    (h : Drift P s₀ t gain credit) (hpattern : s₀.pattern = s.pattern)
    (hweight : s₀.weightOf P + gain = s.weightOf P + gain') : Drift P s t gain' credit := by
  have heq : (t.weightOf P : ℤ) - s₀.weightOf P - gain = t.weightOf P - s.weightOf P - gain' := by
    zify at hweight
    linarith
  rw [Drift, heq, hpattern] at h
  exact h

/-! ### Updates -/

theorem StandsFor.drift_settle [Std.TransCmp cmp] (hP : IsInitial cmp P) {s : Sketch α cmp}
    {m start : ℕ} {block : List α} {levels : List (List α)} (h : s.StandsFor m)
    (hlen : block.length = s.k) (hblock : Sorted cmp block)
    (hlevels : levels ∈ Levels.carryAt cmp start s.levels block) :
    Drift P s { s with levels } (levelWeight start * block.countP P) ((start + 1) * 2 ^ start) := by
  have hdrift := (Levels.carried_of_mem hlevels).drift hP h.size.pos hlen hblock h.regular
  have heq : (({ s with levels } : Sketch α cmp).weightOf P : ℤ) - s.weightOf P
        - (levelWeight start * block.countP P : ℕ)
      = Levels.weigh (List.countP P) levels - Levels.weigh (List.countP P) s.levels
        - 2 ^ (start + 1) * block.countP P := by
    rw [weightOf_eq, weightOf_eq, levelWeight_eq]
    push_cast
    ring
  rw [Drift, heq, pattern, pattern]
  exact_mod_cast hdrift

theorem StandsFor.drift_compact [Std.TransCmp cmp] (hP : IsInitial cmp P) {s s' : Sketch α cmp}
    {m : ℕ} (h : ({ s with buffer := #[] } : Sketch α cmp).StandsFor m)
    (hfull : s.buffer.size = 2 * s.k) (hs' : s' ∈ s.compact) :
    Drift P { s with buffer := #[] } s' (s.buffer.toList.countP P) 0 := by
  obtain ⟨offset, levels, hlevels, rfl⟩ := mem_compact.mp hs'
  have hsorted := sorted_sortBy cmp s.buffer.toList
  have hlen := length_half_buffer hfull offset
  -- Halving is off by one item, which is what a block at the lowest level pays for.
  have hmove := Levels.abs_two_mul_countP_half_sub_le hP hsorted offset
  rw [(sortBy_perm cmp s.buffer.toList).countP_eq] at hmove
  refine (h.drift_settle hP hlen (hsorted.everyNth 2 offset) hlevels).adjust ?_
  rw [levelWeight_eq]
  push_cast
  linarith

theorem StandsFor.drift_update [Std.TransCmp cmp] (hP : IsInitial cmp P) {s s' : Sketch α cmp}
    {m : ℕ} {x : α} (h : s.StandsFor m) (hs' : s' ∈ s.update x) :
    Drift P s s' (if P x then 1 else 0) 0 := by
  rcases mem_update.mp hs' with ⟨-, rfl⟩ | ⟨hfull, hs'⟩
  · rw [Drift, weightOf_push]
    push_cast
    simp [pattern, push]
  · have hsize : (s.push x).buffer.size = s.buffer.size + 1 := Array.size_push _
    refine ((h.flushed x).drift_compact hP (hsize.trans hfull) hs').of_weightOf_eq rfl ?_
    rw [← weightOf_push, weightOf_eq, weightOf_eq]
    simp only [List.countP_nil, Nat.zero_add]
    exact Nat.add_comm _ _

theorem StandsFor.drift_updateAll [Std.TransCmp cmp] (hP : IsInitial cmp P) {s s' : Sketch α cmp}
    {m : ℕ} {xs : List α} (h : s.StandsFor m) (hs' : s' ∈ s.updateAll xs) :
    Drift P s s' (xs.countP P) 0 := by
  have hboth := updateAll_induction (motive := fun ys t =>
    t.StandsFor (m + ys.length) ∧ Drift P s t (ys.countP P) 0) hs' ⟨h, .refl s⟩ ?_
  · exact hboth.2
  · rintro ys t t' x ⟨hstands, hdrift⟩ ht'
    refine ⟨?_, ?_⟩
    · rw [List.length_append, List.length_singleton, ← Nat.add_assoc]
      exact hstands.update ht'
    · rw [List.countP_append, List.countP_singleton]
      exact hdrift.trans (hstands.drift_update hP ht')

/-! ### Taking in another sketch -/

/-- What an item of level `l` accounts for and the error of thinning out by `2 ^ e` are
no more than what an item of level `l + e` accounts for. -/
theorem credit_thin (l e : ℕ) :
    (l + 1) * 2 ^ l + 2 ^ (l + 1) * (2 ^ e - 1) ≤ (l + e + 1) * 2 ^ (l + e) := by
  obtain ⟨c, hc⟩ : ∃ c, 2 ^ e = c + 1 := Nat.exists_eq_add_one.mpr (Nat.two_pow_pos e)
  -- Both sides are multiples of `2 ^ l`.
  have hcore : l + 1 + 2 * c ≤ (l + e + 1) * (c + 1) := by
    rcases Nat.eq_zero_or_pos e with rfl | he
    · have hzero : c = 0 := by simpa using hc.symm
      subst hzero
      omega
    · nlinarith
  calc (l + 1) * 2 ^ l + 2 ^ (l + 1) * (2 ^ e - 1)
      = 2 ^ l * (l + 1 + 2 * c) := by
        rw [hc, Nat.add_sub_cancel]
        ring
    _ ≤ 2 ^ l * ((l + e + 1) * (c + 1)) := Nat.mul_le_mul_left _ hcore
    _ = (l + e + 1) * 2 ^ (l + e) := by
        rw [Nat.pow_add, hc]
        ring

/-- Thinning out a block moves the weight of its items by less than one stride. -/
theorem abs_weight_thin_sub_le (hP : IsInitial cmp P) {block : List α} (h : Sorted cmp block)
    (l e : ℕ) (offset : Fin (2 ^ e)) :
    |((levelWeight (l + e) * (everyNth (2 ^ e) offset block).countP P : ℕ) : ℤ)
        - (levelWeight l * block.countP P : ℕ)| ≤ (2 ^ (l + 1) * (2 ^ e - 1) : ℕ) := by
  have hkept := abs_stride_mul_kept_sub_le offset.isLt (block.countP P)
  rw [← countP_everyNth hP _ _ h] at hkept
  have heq : ((levelWeight (l + e) * (everyNth (2 ^ e) offset block).countP P : ℕ) : ℤ)
        - (levelWeight l * block.countP P : ℕ)
      = 2 ^ (l + 1) * (((2 ^ e : ℕ) * (everyNth (2 ^ e) offset block).countP P : ℤ)
          - block.countP P) := by
    rw [levelWeight_eq, levelWeight_eq]
    push_cast
    ring
  have hpos : (0 : ℤ) ≤ 2 ^ (l + 1) := by positivity
  rw [heq, abs_mul, abs_of_nonneg hpos]
  have hcast : ((2 ^ (l + 1) * (2 ^ e - 1) : ℕ) : ℤ) = 2 ^ (l + 1) * ((2 ^ e : ℕ) - 1) := by
    rw [Nat.cast_mul, Nat.cast_sub (Nat.two_pow_pos e)]
    push_cast
    ring
  rw [hcast]
  exact mul_le_mul_of_nonneg_left hkept hpos

theorem StandsFor.drift_absorbBlocks [Std.TransCmp cmp] (hP : IsInitial cmp P)
    {s s' : Sketch α cmp} {m e : ℕ} {blocks : List (ℕ × List α)} (h : s.StandsFor m)
    (hblocks : ∀ b ∈ blocks, b.2.length = 2 ^ e * s.k ∧ Sorted cmp b.2)
    (hs' : s' ∈ s.absorbBlocks (2 ^ e) e blocks) :
    Drift P s s' (blocks.map fun b => levelWeight b.1 * b.2.countP P).sum
      (blocks.map fun b => (b.1 + 1) * 2 ^ b.1).sum := by
  induction blocks generalizing s m with
  | nil =>
    rw [Sketch.absorbBlocks, mem_done] at hs'
    rw [hs']
    exact .refl s
  | cons b blocks ih =>
    obtain ⟨offset, levels, hlevels, hs'⟩ :=
      (mem_absorbBlocks_cons (Nat.two_pow_pos e)).mp hs'
    obtain ⟨hlen, hsorted⟩ := hblocks b List.mem_cons_self
    have hthin := length_everyNth_of_eq_mul offset.isLt hlen
    have hsorted' := hsorted.everyNth (2 ^ e) offset
    have hrest := ih (h.settle hthin hsorted' hlevels)
      (fun c hc => hblocks c (List.mem_cons_of_mem _ hc)) hs'
    -- The block pays for being thinned out with what it accounts for at its new level,
    -- and what it accounted for at its old one is left.
    have hmove := abs_weight_thin_sub_le hP hsorted b.1 e offset
    have hcredit := credit_thin b.1 e
    have hfirst : Drift P s { s with levels } (levelWeight b.1 * b.2.countP P)
        ((b.1 + 1) * 2 ^ b.1) := by
      refine (h.drift_settle hP hthin hsorted' hlevels).adjust ?_
      zify at hcredit
      push_cast at hcredit hmove ⊢
      linarith
    simpa only [List.map_cons, List.sum_cons] using hfirst.trans hrest

/-- The levels of a sketch account for as much as their pattern does. -/
theorem sum_credit_occupied (levels : List (List α)) :
    ((Levels.occupied levels).map fun b => (b.1 + 1) * 2 ^ b.1).sum
      = errorBound (Levels.pattern levels) := by
  rw [errorBound, ← Levels.map_fst_occupied, List.map_map]
  rfl

theorem StandsFor.drift_absorb [Std.TransCmp cmp] (hP : IsInitial cmp P)
    {s s' other : Sketch α cmp} {m m' : ℕ} (h : s.StandsFor m) (hother : other.StandsFor m')
    (hle : s.k ≤ other.k) (hs' : s' ∈ s.absorb other) :
    Drift P s s' (other.weightOf P) (errorBound other.pattern) := by
  obtain ⟨e, he, hstride⟩ := h.size.exists_stride hother.size hle
  obtain ⟨t, ht, u, hu, rfl⟩ := mem_absorb.mp hs'
  rw [hstride, Nat.log2_two_pow] at hu
  have hdrift := (h.drift_updateAll hP ht).trans
    ((h.updateAll ht).drift_absorbBlocks hP (hother.occupied he ht) hu)
  rw [sum_credit_occupied, Levels.sum_occupied List.countP_nil, Nat.zero_add] at hdrift
  exact hdrift

theorem StandsFor.drift_shrink [Std.TransCmp cmp] (hP : IsInitial cmp P) {s s' : Sketch α cmp}
    {m k : ℕ} (h : s.StandsFor m) (hk : Admissible k) (hle : k ≤ s.k) (hs' : s' ∈ s.shrink k) :
    Drift P s s' 0 0 := by
  -- The cleared sketch weighs nothing and accounts for nothing.
  have hdrift := (StandsFor.cleared s hk).drift_absorb hP h hle hs'
  have hnothing : ({ s with k, n := 0, buffer := #[], levels := [] } : Sketch α cmp).weightOf P
      = 0 := by
    rw [weightOf_eq]
    rfl
  have hfree : errorBound ({ s with k, n := 0, buffer := #[], levels := [] } : Sketch α cmp).pattern
      = 0 := errorBound_zero
  rw [Drift, hnothing, hfree] at hdrift
  rw [Drift]
  push_cast at hdrift ⊢
  rw [sub_zero, add_zero] at hdrift
  rw [sub_zero, add_zero]
  exact hdrift

theorem StandsFor.drift_reduced [Std.TransCmp cmp] (hP : IsInitial cmp P) {s s' : Sketch α cmp}
    {m k : ℕ} (h : s.StandsFor m) (hk : Admissible k) (hs' : s' ∈ s.reduced k) :
    Drift P s s' 0 0 := by
  rw [Sketch.reduced] at hs'
  split at hs'
  · rename_i hlt
    exact h.drift_shrink hP hk (Nat.le_of_lt hlt) hs'
  · rw [mem_done] at hs'
    rw [hs']
    exact .refl s

theorem StandsFor.drift_merge [Std.TransCmp cmp] (hP : IsInitial cmp P)
    {s s' other : Sketch α cmp} {m m' : ℕ} {merged : Randomized (Sketch α cmp)}
    (h : s.StandsFor m) (hother : other.StandsFor m') (hn : other.n ≠ 0)
    (hmerge : s.merge other = .ok merged) (hs' : s' ∈ merged) :
    Drift P s s' (other.weightOf P) (errorBound other.pattern) := by
  obtain ⟨t, ht, u, hu, rfl⟩ := (mem_merge h.size hother.size hn hmerge).mp hs'
  obtain ⟨hstands, hk, -⟩ := h.reduced hother.size ht
  have hle : t.k ≤ other.k := hk ▸ Nat.min_le_right _ _
  have hdrift := (h.drift_reduced hP hother.size ht).trans (hstands.drift_absorb hP hother hle hu)
  rw [Nat.zero_add, Nat.zero_add] at hdrift
  exact hdrift

end QuantileSketch.Sketch
