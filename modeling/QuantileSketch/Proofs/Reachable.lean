/-
The sketches that can come about.

A sketch is `Reachable` if it is new or was read from bytes, whatever they were, or is
what an update, a merge or a reset makes of reachable sketches, whatever the draws are
answered; this covers sketches with a source of their own (`LiveSketch.update_mem`,
`LiveSketch.merge_mem`).

* `Reachable.sound` — every reachable sketch is sound;
* `Reachable.safe` — so its snapshot passes the check, no operation on it fails, and
  none of their assertions does.
-/
import QuantileSketch.Proofs.Assertions
import QuantileSketch.Proofs.Reading
import QuantileSketch.Sketch.Live

open QuantileSketch.Randomized

namespace QuantileSketch

variable {α : Type} {cmp : α → α → Ordering}

/-! ### Sketches with a source -/

namespace LiveSketch

variable {ρ : Type} [RandomSource ρ]

theorem update_mem (s : LiveSketch α cmp ρ) (x : α) :
    (s.update x).1.sketch ∈ s.sketch.update x :=
  run_value_mem (s.sketch.update x) s.source

theorem merge_mem {s : LiveSketch α cmp ρ} {other : Sketch α cmp}
    {out : LiveSketch α cmp ρ × List Event} (h : s.merge other = .ok out) :
    ∃ merged, s.sketch.merge other = .ok merged ∧ out.1.sketch ∈ merged := by
  rw [LiveSketch.merge] at h
  cases hmerge : s.sketch.merge other with
  | error fault =>
    rw [hmerge] at h
    cases h
  | ok merged =>
    rw [hmerge] at h
    obtain rfl := Except.ok.inj h
    exact ⟨merged, rfl, run_value_mem merged s.source⟩

end LiveSketch

/-! ### Reachable sketches -/

namespace Sketch

/-- The sketches that can come about.  A copy of a sketch is the same sketch. -/
inductive Reachable : Sketch α cmp → Prop
  /-- A new sketch. -/
  | ofSize {k : ℕ} {s : Sketch α cmp} (h : ofSize? k = .ok s) : Reachable s
  /-- A sketch read from bytes, for any codec of its items. -/
  | decode [Image.ItemCodec α] {bytes : List UInt8} {s : Sketch α cmp}
    (h : decode? bytes = .ok s) : Reachable s
  /-- A sketch after an item of the stream. -/
  | update {s s' : Sketch α cmp} {x : α} (hs : Reachable s) (h : s' ∈ s.update x) : Reachable s'
  /-- A sketch into which another one was merged. -/
  | merge {s other s' : Sketch α cmp} {merged : Randomized (Sketch α cmp)} (hs : Reachable s)
    (hother : Reachable other) (hmerge : s.merge other = .ok merged) (h : s' ∈ merged) :
    Reachable s'
  /-- A sketch that has forgotten its stream. -/
  | reset {s : Sketch α cmp} (hs : Reachable s) : Reachable s.reset

theorem admissible_of_ofSize? {k : ℕ} {s : Sketch α cmp} (h : ofSize? k = .ok s) :
    Admissible k ∧ s = empty k := by
  rw [ofSize?] at h
  split at h
  · rename_i hk
    exact ⟨hk, (Except.ok.inj h).symm⟩
  · cases h

theorem Reachable.sound [Std.TransCmp cmp] {s : Sketch α cmp} (h : s.Reachable) : s.Sound := by
  induction h with
  | ofSize h =>
    obtain ⟨hk, rfl⟩ := admissible_of_ofSize? h
    exact Sound.empty hk
  | decode h => exact sound_of_decode? h
  | update _ h ih => exact ih.update h
  | merge _ _ hmerge h ih ihother => exact ih.merge ihother hmerge h
  | reset _ ih => exact Sound.empty ih.size

theorem Reachable.updateAll {s s' : Sketch α cmp} {xs : List α} (h : s.Reachable)
    (hs' : s' ∈ s.updateAll xs) : s'.Reachable :=
  updateAll_induction (motive := fun _ t => t.Reachable) hs' h fun ht ht' => ht.update ht'

/-- Every reachable sketch is sound and passes the check of its snapshot.  Updating it
and merging reachable sketches into it violates no assertion.  A merge never fails; it
adds up the counts and takes the smaller block size, and an empty sketch changes
nothing. -/
theorem Reachable.safe [Std.TransCmp cmp] {s : Sketch α cmp} (hs : s.Reachable) :
    s.Sound ∧ s.snapshot.check = .ok ()
      ∧ (∀ x, Asserted.update s x = ExceptT.lift (s.update x))
      ∧ ∀ other : Sketch α cmp, other.Reachable →
        ∃ merged, s.merge other = .ok merged
          ∧ Asserted.merge s other = .ok (ExceptT.lift merged)
          ∧ (other.n = 0 → merged = .done s)
          ∧ (other.n ≠ 0 → ∀ s' ∈ merged, s'.n = s.n + other.n ∧ s'.k = min s.k other.k) := by
  have hsound := hs.sound
  refine ⟨hsound, hsound.check_snapshot, Asserted.update_eq s, fun other hother => ?_⟩
  obtain ⟨merged, hmerge, hasserted⟩ := Asserted.merge_eq hsound hother.sound
  refine ⟨merged, hmerge, hasserted, ?_, ?_⟩
  · intro hn
    rw [merge_of_n_eq_zero s hn] at hmerge
    exact (Except.ok.inj hmerge).symm
  · intro hn s' hs'
    obtain ⟨-, hk, hsum⟩ :=
      hsound.standsFor.merge hother.sound.standsFor hn hmerge hs'
    exact ⟨hsum, hk⟩

/-- A sketch of block size `2` that has seen the items `1`, …, `5`. -/
def afterFive : Sketch ℕ compare where
  k := 2
  n := 5
  buffer := #[5]
  levels := [[1, 3]]
  least := some 1
  greatest := some 5

theorem afterFive_mem_updateAll : afterFive ∈ (empty 2).updateAll [1, 2, 3, 4, 5] := by
  have hsorted : sortBy compare [1, 2, 3, 4] = [1, 2, 3, 4] := by
    refine sortBy_of_sorted ?_
    rw [Sorted]
    decide
  have hlevels : [[1, 3]] ∈ Levels.carryAt compare 0 []
      (everyNth 2 0 (sortBy compare [1, 2, 3, 4])) := by
    rw [hsorted]
    rfl
  refine mem_updateAll_cons.mpr ⟨_, mem_update.mpr (.inl ⟨by decide, rfl⟩), ?_⟩
  refine mem_updateAll_cons.mpr ⟨_, mem_update.mpr (.inl ⟨by decide, rfl⟩), ?_⟩
  refine mem_updateAll_cons.mpr ⟨_, mem_update.mpr (.inl ⟨by decide, rfl⟩), ?_⟩
  refine mem_updateAll_cons.mpr ⟨_, mem_update.mpr (.inr ⟨by decide,
    mem_compact.mpr ⟨0, [[1, 3]], hlevels, rfl⟩⟩), ?_⟩
  exact mem_updateAll_cons.mpr ⟨_, mem_update.mpr (.inl ⟨by decide, rfl⟩), rfl⟩

theorem reachable_afterFive : afterFive.Reachable :=
  (Reachable.ofSize (k := 2) rfl).updateAll afterFive_mem_updateAll

theorem Reachable.safe_afterFive :
    afterFive.Reachable ∧ afterFive.Sound ∧ afterFive.snapshot.check = .ok ()
      ∧ ∃ merged, afterFive.merge afterFive = .ok merged ∧ ∀ s' ∈ merged, s'.n = 10 ∧ s'.k = 2 := by
  obtain ⟨hsound, hcheck, -, hsafe⟩ := Reachable.safe reachable_afterFive
  obtain ⟨merged, hmerge, -, -, hmerged⟩ := hsafe afterFive reachable_afterFive
  exact ⟨reachable_afterFive, hsound, hcheck, merged, hmerge, hmerged (by decide)⟩

end Sketch

end QuantileSketch
