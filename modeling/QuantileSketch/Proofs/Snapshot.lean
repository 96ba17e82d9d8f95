/-
When a snapshot passes its check.

`Snapshot.check_eq_ok_iff` says it in one statement: every part of the snapshot is the
one that its block size and its count call for.  A sound sketch has such a snapshot
(`Sketch.Sound.check_snapshot`).

Design notes: a check is a row of guards, each of which stops with a fault, so there is
one lemma for a guard (`guard_eq_ok_iff`) and one for a check of every item of a list
(`forM_eq_ok_iff`).
-/
import QuantileSketch.Proofs.Consistency
import QuantileSketch.Snapshot

namespace QuantileSketch

/-! ### Checks in a row -/

theorem guard_eq_ok_iff {ε β : Type} {c : Prop} [Decidable c] {e : ε} {next : Unit → Except ε β}
    {v : β} :
    (if c then (throw e : Except ε Unit) >>= next else next ()) = .ok v ↔
      ¬ c ∧ next () = .ok v := by
  by_cases h : c
  · rw [if_pos h]
    simp [h, bind, Except.bind, throw, throwThe, MonadExceptOf.throw]
  · simp [h]

theorem forM_eq_ok_iff {ε β : Type} {f : β → Except ε Unit} {xs : List β} :
    xs.forM f = .ok () ↔ ∀ x ∈ xs, f x = .ok () := by
  induction xs with
  | nil => simp [List.forM, pure, Except.pure]
  | cons x xs ih =>
    rw [List.forM]
    cases hx : f x with
    | error e => simp [bind, Except.bind, hx]
    | ok u => simpa [bind, Except.bind, hx] using ih

/-! ### Snapshots -/

namespace Snapshot

variable {α : Type}

theorem checkLevel_eq_ok_iff {s : Snapshot α} {level : ℕ} :
    s.checkLevel level = .ok () ↔ s.heldAt level = s.expectedAt level := by
  rw [checkLevel]
  split <;> simp [*]

/-- A level beyond the slots of a snapshot holds nothing. -/
theorem heldAt_of_length_le {s : Snapshot α} {level : ℕ} (h : s.levels.length ≤ level) :
    s.heldAt level = 0 := by
  rw [heldAt, List.getElem?_eq_none h]
  rfl

/-- A level beyond the pattern of a snapshot must hold nothing. -/
theorem expectedAt_of_levelCount_le {s : Snapshot α} {level : ℕ}
    (h : levelCount s.pattern ≤ level) : s.expectedAt level = 0 := by
  rw [expectedAt, if_neg]
  intro hbit
  have := lt_levelCount_of_testBit hbit
  omega

theorem check_eq_ok_iff {s : Snapshot α} :
    s.check = .ok () ↔
      Admissible s.k ∧ s.pattern = occupancy s.k s.n ∧ s.buffer.length = bufferCount s.k s.n
        ∧ s.buffer.length = s.buffered ∧ Levels.Holds s.k s.pattern s.levels := by
  have hlevels : (List.range (max s.levels.length (levelCount s.pattern))).forM s.checkLevel
      = .ok () ↔ Levels.Holds s.k s.pattern s.levels := by
    simp only [forM_eq_ok_iff, List.mem_range, checkLevel_eq_ok_iff]
    constructor
    · intro h level
      show s.heldAt level = s.expectedAt level
      -- Levels that are not looked at hold nothing, and are to hold nothing.
      by_cases hlt : level < max s.levels.length (levelCount s.pattern)
      · exact h level hlt
      · rw [heldAt_of_length_le (by omega), expectedAt_of_levelCount_le (by omega)]
    · exact fun h level _ => h level
  rw [check, guard_eq_ok_iff, guard_eq_ok_iff, guard_eq_ok_iff, hlevels, not_not, not_not, not_or,
    not_not, not_not, and_assoc]

end Snapshot

variable {α : Type} {cmp : α → α → Ordering}

theorem Sketch.Sound.check_snapshot {s : Sketch α cmp} (h : s.Sound) :
    s.snapshot.check = .ok () := by
  have hpattern : s.pattern = occupancy s.k s.n := h.standsFor.pattern_eq
  refine Snapshot.check_eq_ok_iff.mpr ⟨h.size, hpattern, h.buffer, rfl, ?_⟩
  show Levels.Holds s.k s.pattern s.levels
  rw [hpattern]
  exact h.levels.holds

end QuantileSketch
