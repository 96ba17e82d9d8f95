/-
How far ranks are off.

A sketch `Summarizes` a stream if it came about by updates with the items of the stream,
by merging sketches of parts of it, and by reading back images that the library wrote.
Its error of rank is then bounded by the levels it occupies, whatever the draws were
answered: `Summarizes.rank_error`.  While nothing has been compacted there is no error.

Design notes: the bound is the potential `errorBound` that pays for every drift, so the
induction over the history only has to add up.
-/
import QuantileSketch.Proofs.Drift
import QuantileSketch.Proofs.Reachable
import QuantileSketch.Proofs.RoundTrip

open QuantileSketch.Randomized

namespace QuantileSketch.Sketch

variable {α : Type} {cmp : α → α → Ordering}

/-- The sketch came about from the items of the stream.  A copy of a sketch is the same
sketch. -/
inductive Summarizes : Sketch α cmp → List α → Prop
  /-- A new sketch has seen nothing. -/
  | ofSize {k : ℕ} {s : Sketch α cmp} (h : ofSize? k = .ok s) : Summarizes s []
  /-- An item of the stream was added. -/
  | update {s s' : Sketch α cmp} {xs : List α} {x : α} (hs : Summarizes s xs)
    (h : s' ∈ s.update x) : Summarizes s' (xs ++ [x])
  /-- Another sketch was merged into this one. -/
  | merge {s other s' : Sketch α cmp} {xs ys : List α} {merged : Randomized (Sketch α cmp)}
    (hs : Summarizes s xs) (hother : Summarizes other ys) (hmerge : s.merge other = .ok merged)
    (h : s' ∈ merged) : Summarizes s' (xs ++ ys)
  /-- The stream was forgotten. -/
  | reset {s : Sketch α cmp} {xs : List α} (hs : Summarizes s xs) : Summarizes s.reset []
  /-- The sketch was written, and its image read. -/
  | reload [Image.ItemCodec α] [Image.LawfulItemCodec α] {s s' : Sketch α cmp} {xs : List α}
    {ordered : Bool} (hs : Summarizes s xs) (hitems : s.Encodable) (hn : s.n < 2 ^ 64)
    (h : decode? (s.encode ordered) = .ok s') : Summarizes s' xs

theorem Summarizes.reachable {s : Sketch α cmp} {xs : List α} (h : Summarizes s xs) :
    s.Reachable := by
  induction h with
  | ofSize h => exact .ofSize h
  | update _ h ih => exact ih.update h
  | merge _ _ hmerge h ih ihother => exact ih.merge ihother hmerge h
  | reset _ ih => exact ih.reset
  | reload _ _ _ h _ => exact .decode h

theorem Summarizes.updateAll {s s' : Sketch α cmp} {xs ys : List α} (h : Summarizes s xs)
    (hs' : s' ∈ s.updateAll ys) : Summarizes s' (xs ++ ys) := by
  rw [← List.append_nil xs] at h
  refine updateAll_induction (motive := fun zs t => Summarizes t (xs ++ zs)) hs' h ?_
  intro zs t t' x ht ht'
  rw [← List.append_assoc]
  exact ht.update ht'

/-- The sketch counts the items of the stream, and accounts for the error of its
weights. -/
structure Tracks (P : α → Bool) (s : Sketch α cmp) (xs : List α) : Prop where
  count : s.n = xs.length
  weight : |(s.weightOf P : ℤ) - xs.countP P| ≤ errorBound s.pattern

theorem Tracks.empty (P : α → Bool) (k : ℕ) : Tracks P (empty k : Sketch α cmp) [] := by
  refine ⟨rfl, ?_⟩
  simp [weightOf_eq, Sketch.empty, Levels.weigh]

/-- A step that drifts from a sketch that tracks its stream leads to one that tracks the
stream with what it took in. -/
theorem Tracks.of_drift {P : α → Bool} {s s' : Sketch α cmp} {xs ys : List α} {gain credit : ℕ}
    (h : Tracks P s xs) (hdrift : Drift P s s' gain credit) (hn : s'.n = (xs ++ ys).length)
    (hgain : |(gain : ℤ) - ys.countP P| ≤ credit) : Tracks P s' (xs ++ ys) := by
  refine ⟨hn, ?_⟩
  -- The error is that of the step, that before the step, and that of what it takes in.
  have hweight := h.weight
  have heq : (s'.weightOf P : ℤ) - (xs ++ ys).countP P
      = s'.weightOf P - s.weightOf P - gain + (s.weightOf P - xs.countP P)
        + (gain - ys.countP P) := by
    rw [List.countP_append]
    push_cast
    ring
  have hsum := abs_add_three ((s'.weightOf P : ℤ) - s.weightOf P - gain)
    (s.weightOf P - xs.countP P) (gain - ys.countP P)
  rw [← heq] at hsum
  rw [Drift] at hdrift
  linarith

theorem n_of_mem_update {s s' : Sketch α cmp} {x : α} (h : s' ∈ s.update x) : s'.n = s.n + 1 := by
  obtain ⟨buffer, levels, rfl⟩ := exists_of_mem_update h
  rfl

theorem Tracks.update [Std.TransCmp cmp] {P : α → Bool} (hP : IsInitial cmp P)
    {s s' : Sketch α cmp} {xs : List α} {x : α} (h : Tracks P s xs) (hs : s.Sound)
    (hs' : s' ∈ s.update x) : Tracks P s' (xs ++ [x]) := by
  refine h.of_drift (hs.standsFor.drift_update hP hs') ?_ ?_
  · rw [n_of_mem_update hs', h.count, List.length_append, List.length_singleton]
  · rw [List.countP_singleton]
    split <;> simp [*]

theorem Tracks.merge [Std.TransCmp cmp] {P : α → Bool} (hP : IsInitial cmp P)
    {s s' other : Sketch α cmp} {xs ys : List α} {merged : Randomized (Sketch α cmp)}
    (h : Tracks P s xs) (hother : Tracks P other ys) (hs : s.Sound) (ho : other.Sound)
    (hmerge : s.merge other = .ok merged) (hs' : s' ∈ merged) : Tracks P s' (xs ++ ys) := by
  by_cases hn : other.n = 0
  · -- An empty sketch has seen nothing, and adds nothing.
    have hys : ys = [] := List.eq_nil_of_length_eq_zero (hother.count ▸ hn)
    rw [merge_of_n_eq_zero s hn, Except.ok.injEq] at hmerge
    subst hmerge
    rw [mem_done] at hs'
    rw [hs', hys, List.append_nil]
    exact h
  · obtain ⟨-, -, hsum⟩ := hs.standsFor.merge ho.standsFor hn hmerge hs'
    refine h.of_drift (hs.standsFor.drift_merge hP ho.standsFor hn hmerge hs') ?_ hother.weight
    rw [hsum, h.count, hother.count, List.length_append]

theorem Tracks.rewritten {P : α → Bool} {s : Sketch α cmp} {xs : List α} (h : Tracks P s xs)
    (ordered : Bool) : Tracks P (s.rewritten ordered) xs := by
  have hweight : (s.rewritten ordered).weightOf P = s.weightOf P := by
    rw [weightOf_eq, weightOf_eq, ← (writtenBuffer_perm ordered s).countP_eq]
    rfl
  refine ⟨h.count, ?_⟩
  rw [hweight]
  exact h.weight

theorem Summarizes.tracks [Std.TransCmp cmp] {P : α → Bool} (hP : IsInitial cmp P)
    {s : Sketch α cmp} {xs : List α} (h : Summarizes s xs) : Tracks P s xs := by
  induction h with
  | ofSize h =>
    obtain ⟨-, rfl⟩ := admissible_of_ofSize? h
    exact Tracks.empty P _
  | update hs h ih => exact ih.update hP hs.reachable.sound h
  | merge hs hother hmerge h ih ihother =>
    exact ih.merge hP ihother hs.reachable.sound hother.reachable.sound hmerge h
  | reset => exact Tracks.empty P _
  | reload hs hitems hn h ih =>
    rw [hs.reachable.sound.decode?_encode hitems hn, Except.ok.injEq] at h
    rw [← h]
    exact ih.rewritten _

/-- The histogram with the split point `x` counts the items of the stream below `x`, up
to the error that the occupied levels account for. -/
theorem Summarizes.rank_error [Std.TransCmp cmp] {s : Sketch α cmp} {xs : List α}
    (h : Summarizes s xs) (x : α) :
    s.n = xs.length ∧ ∃ below above, s.histogram [x] = .ok [below, above]
      ∧ |(below : ℤ) - xs.countP fun y => (cmp y x).isLT| ≤ errorBound (occupancy s.k s.n)
      ∧ (s.n < 2 * s.k → below = xs.countP fun y => (cmp y x).isLT) := by
  have hsound := h.reachable.sound
  have htracks := h.tracks (isInitial_isLT x)
  have hweight := htracks.weight
  rw [hsound.standsFor.pattern_eq] at hweight
  refine ⟨htracks.count, _, _, hsound.histogram_singleton x, hweight, fun hn => ?_⟩
  rw [occupancy, Nat.div_eq_of_lt hn, errorBound_zero, Nat.cast_zero, abs_nonpos_iff,
    sub_eq_zero] at hweight
  exact_mod_cast hweight

theorem summarizes_afterFive : Summarizes afterFive [1, 2, 3, 4, 5] :=
  (Summarizes.ofSize (k := 2) rfl).updateAll afterFive_mem_updateAll

theorem Summarizes.rank_error_afterFive :
    Summarizes afterFive [1, 2, 3, 4, 5]
      ∧ ∃ below above, afterFive.histogram [4] = .ok [below, above] ∧ |(below : ℤ) - 3| ≤ 1 := by
  have hbound : errorBound (occupancy afterFive.k afterFive.n) = 1 := by decide
  obtain ⟨-, below, above, hhistogram, herror, -⟩ := Summarizes.rank_error summarizes_afterFive 4
  rw [hbound] at herror
  exact ⟨summarizes_afterFive, below, above, hhistogram, herror⟩

end QuantileSketch.Sketch
