/-
Occupancy patterns, bit by bit.

An occupancy pattern is read from its lowest bit: `b + 2 * p` has the bit `b` at
level `0`, and the bits of `p` one level higher.  Every figure of a pattern follows
this shape:

* `levelCount_bit`, `occupiedLevels_bit` — which levels it spans and occupies;
* `carryLength` — how many occupied levels a carry passes before it finds a free
  one (`carryLength_bit`, `isLeast_carryLength`);
* `errorBound` — the greatest error of rank that the levels can account for
  (`errorBound_bit`).

Design notes: a level `i` accounts for `(i + 1) * 2 ^ i`.  This is what makes
`errorBound` a potential: two blocks at level `i` and the error of halving them
together, `2 ^ (i + 1)`, are worth exactly one block at level `i + 1`.
-/
import QuantileSketch.Layout
import Mathlib.Algebra.BigOperators.Ring.List
import Mathlib.Tactic.Ring

namespace QuantileSketch

/-! ### Levels of a pattern -/

theorem levelCount_bit {b p : ℕ} (hb : b < 2) (h : b + 2 * p ≠ 0) :
    levelCount (b + 2 * p) = levelCount p + 1 := by
  rw [levelCount, if_neg h, levelCount]
  -- Without a higher bit it is level `0` alone.
  by_cases hp : p = 0
  · subst hp
    have hone : b = 1 := by omega
    subst hone
    rfl
  · have hhalf : (b + 2 * p) / 2 = p := by omega
    rw [if_neg hp, Nat.log2_def, if_pos (by omega), hhalf]

theorem levelWeight_eq (level : ℕ) : levelWeight level = 2 ^ (level + 1) := Nat.one_shiftLeft _

theorem testBit_bit_zero {b p : ℕ} (hb : b < 2) : (b + 2 * p).testBit 0 = decide (b = 1) := by
  rw [Nat.testBit_zero]
  congr 1
  rw [eq_iff_iff]
  omega

theorem testBit_bit_succ {b p : ℕ} (hb : b < 2) (i : ℕ) :
    (b + 2 * p).testBit (i + 1) = p.testBit i := by
  have hhalf : (b + 2 * p) / 2 = p := by omega
  rw [Nat.testBit_succ, hhalf]

theorem bit_div_two_pow {b p : ℕ} (hb : b < 2) (i : ℕ) :
    (b + 2 * p) / 2 ^ (i + 1) = p / 2 ^ i := by
  have hhalf : (b + 2 * p) / 2 = p := by omega
  rw [Nat.pow_succ', ← Nat.div_div_eq_div_mul, hhalf]

theorem occupiedLevels_bit {b p : ℕ} (hb : b < 2) :
    occupiedLevels (b + 2 * p)
      = (if b = 1 then [0] else []) ++ (occupiedLevels p).map (· + 1) := by
  by_cases h : b + 2 * p = 0
  · obtain ⟨rfl, rfl⟩ : b = 0 ∧ p = 0 := by omega
    rfl
  · rw [occupiedLevels, levelCount_bit hb h, List.range_succ_eq_map, List.filter_cons,
      testBit_bit_zero hb, List.filter_map, occupiedLevels]
    -- The levels above `0` are those of `p`, one higher.
    have hbits : (b + 2 * p).testBit ∘ Nat.succ = p.testBit := by
      funext i
      exact testBit_bit_succ hb i
    rw [hbits]
    by_cases hone : b = 1
    · rw [if_pos (decide_eq_true hone), if_pos hone]
      rfl
    · rw [if_neg (by simp [hone]), if_neg hone]
      rfl

/-- To prove something of every pattern, add its bits one by one, the highest one
first. -/
theorem bit_induction {motive : ℕ → Prop} (zero : motive 0)
    (bit : ∀ b p, b < 2 → motive p → motive (b + 2 * p)) (p : ℕ) : motive p := by
  induction p using Nat.strongRecOn with
  | ind p ih =>
    by_cases hp : p = 0
    · subst hp
      exact zero
    · have hstep := bit (p % 2) (p / 2) (Nat.mod_lt p Nat.two_pos) (ih (p / 2) (by omega))
      rwa [Nat.mod_add_div] at hstep

/-- A pattern is the number whose bits are its occupied levels. -/
theorem sum_two_pow_occupiedLevels (p : ℕ) : ((occupiedLevels p).map (2 ^ ·)).sum = p := by
  induction p using bit_induction with
  | zero => rfl
  | bit b p hb ih =>
    have hdouble : (fun i => 2 ^ i) ∘ (fun i => i + 1) = fun i : ℕ => 2 * 2 ^ i := by
      funext i
      exact Nat.pow_succ'
    rw [occupiedLevels_bit hb, List.map_append, List.sum_append, List.map_map, hdouble,
      List.sum_map_mul_left, ih]
    congr 1
    split
    · rename_i hone
      rw [hone]
      rfl
    · simp only [List.map_nil, List.sum_nil]
      omega

theorem length_occupiedLevels_le (p : ℕ) : (occupiedLevels p).length ≤ p := by
  induction p using bit_induction with
  | zero => exact Nat.le_refl 0
  | bit b p hb ih =>
    rw [occupiedLevels_bit hb, List.length_append, List.length_map]
    split
    · rename_i hone
      rw [hone, List.length_singleton]
      omega
    · rw [List.length_nil]
      omega

/-- No more items are held than were counted. -/
theorem retainedCount_le (k n : ℕ) : retainedCount k n ≤ n := by
  have hlevels : (occupiedLevels (occupancy k n)).length * k ≤ 2 * k * (n / (2 * k)) := by
    calc (occupiedLevels (occupancy k n)).length * k
        ≤ occupancy k n * k := Nat.mul_le_mul_right k (length_occupiedLevels_le _)
      _ ≤ 2 * (occupancy k n * k) := Nat.le_mul_of_pos_left _ Nat.two_pos
      _ = 2 * k * (n / (2 * k)) := by rw [occupancy]; ring
  calc retainedCount k n
      ≤ n % (2 * k) + 2 * k * (n / (2 * k)) := Nat.add_le_add_left hlevels _
    _ = n := Nat.mod_add_div n (2 * k)

theorem levelCount_le {p m : ℕ} (h : p < 2 ^ m) : levelCount p ≤ m := by
  rw [levelCount]
  split
  · exact Nat.zero_le m
  · rename_i hp
    exact (Nat.log2_lt hp).mpr h

/-! ### Carries -/

/-- The number of levels that a carry passes because they are occupied. -/
def carryLength (p : ℕ) : ℕ :=
  if p % 2 = 1 then carryLength (p / 2) + 1 else 0
decreasing_by omega

theorem carryLength_bit {b p : ℕ} (hb : b < 2) :
    carryLength (b + 2 * p) = if b = 1 then carryLength p + 1 else 0 := by
  have hlow : (b + 2 * p) % 2 = b := by omega
  have hrest : (b + 2 * p) / 2 = p := by omega
  rw [carryLength, hlow, hrest]

/-- A carry ends at the lowest bit that is clear. -/
theorem isLeast_carryLength (p : ℕ) : IsLeast {i | p.testBit i = false} (carryLength p) := by
  induction p using bit_induction with
  | zero =>
    rw [carryLength, if_neg (by decide)]
    exact ⟨Nat.zero_testBit 0, fun i _ => Nat.zero_le i⟩
  | bit b p hb ih =>
    rw [carryLength_bit hb]
    split
    · -- The lowest bit is set, so the carry goes on to those above it.
      rename_i hone
      refine ⟨(testBit_bit_succ hb _).trans ih.1, fun i hi => ?_⟩
      cases i with
      | zero =>
        have hlow := (testBit_bit_zero hb).symm.trans hi
        exact absurd hone (of_decide_eq_false hlow)
      | succ i => exact Nat.succ_le_succ (ih.2 ((testBit_bit_succ hb i).symm.trans hi))
    · rename_i hzero
      exact ⟨(testBit_bit_zero hb).trans (decide_eq_false hzero), fun i _ => Nat.zero_le i⟩

theorem two_pow_carryLength_le (p : ℕ) : 2 ^ carryLength p ≤ p + 1 := by
  induction p using bit_induction with
  | zero =>
    rw [carryLength, if_neg (by decide)]
    exact Nat.le_refl 1
  | bit b p hb ih =>
    rw [carryLength_bit hb]
    split
    · rw [Nat.pow_succ']
      omega
    · rw [Nat.pow_zero]
      omega

/-! ### The error that a pattern accounts for -/

/-- The greatest error of rank that the levels of a pattern account for. -/
def errorBound (p : ℕ) : ℕ := ((occupiedLevels p).map fun i => (i + 1) * 2 ^ i).sum

@[simp] theorem errorBound_zero : errorBound 0 = 0 := rfl

theorem errorBound_bit {b p : ℕ} (hb : b < 2) :
    errorBound (b + 2 * p) = b + 2 * errorBound p + 2 * p := by
  -- One level higher an occupied level counts twice, and `2 * 2 ^ i` on top of that.
  have hshift : (fun i => (i + 1) * 2 ^ i) ∘ (fun i => i + 1)
      = fun i : ℕ => 2 * ((i + 1) * 2 ^ i) + 2 * 2 ^ i := by
    funext i
    simp only [Function.comp_apply, Nat.pow_succ']
    ring
  have hfirst : ((if b = 1 then [0] else []).map fun i => (i + 1) * 2 ^ i).sum = b := by
    split
    · rename_i hone
      rw [hone]
      rfl
    · simp only [List.map_nil, List.sum_nil]
      omega
  rw [errorBound, occupiedLevels_bit hb, List.map_append, List.sum_append, List.map_map, hshift,
    List.sum_map_add, List.sum_map_mul_left, List.sum_map_mul_left, sum_two_pow_occupiedLevels,
    hfirst, errorBound, Nat.add_assoc]

end QuantileSketch
