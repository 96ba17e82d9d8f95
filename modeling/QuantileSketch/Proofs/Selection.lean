/-
Keeping every so many items of a list.

Thinning a list out keeps the positions `offset`, `offset + stride` and so on.  Of
the first `p` positions, `kept stride offset p` are kept, and this number is

* close to `p / stride`, whatever the offset (`abs_stride_mul_kept_sub_le`);
* exactly `p / stride` if `stride` divides `p` (`kept_mul`).

Each item is kept for exactly one offset, so over all offsets the kept items are all
of them (`sum_countP_everyNth`).

A property that holds of everything below an item that has it, such as being below
some `x`, holds of a first stretch of a sorted list, so the kept items with the
property are counted by kept positions (`countP_everyNth`).
-/
import QuantileSketch.Levels
import Mathlib.Algebra.BigOperators.Fin
import Mathlib.Data.Int.CardIntervalMod

open scoped BigOperators

namespace QuantileSketch

variable {α : Type} {cmp : α → α → Ordering}

/-! ### Positions -/

theorem pos_of_one_lt {stride : ℕ} (h : 1 < stride) : 0 < stride := Nat.lt_trans Nat.one_pos h

/-- The number of positions below `p` that are kept. -/
def kept (stride offset p : ℕ) : ℕ := p.count fun i => i % stride = offset

theorem kept_succ (stride offset p : ℕ) :
    kept stride offset (p + 1) = kept stride offset p + if p % stride = offset then 1 else 0 :=
  Nat.count_succ _ _

theorem kept_eq {stride offset : ℕ} (h : offset < stride) (p : ℕ) :
    kept stride offset p = p / stride + if offset < p % stride then 1 else 0 := by
  have hcount := Nat.count_modEq_card p (Nat.zero_lt_of_lt h) offset
  simp only [Nat.ModEq, Nat.mod_eq_of_lt h] at hcount
  exact hcount

/-- The kept positions, each standing for `stride` of them, are off by less than one
stride. -/
theorem abs_stride_mul_kept_sub_le {stride offset : ℕ} (h : offset < stride) (p : ℕ) :
    |(stride * kept stride offset p : ℤ) - p| ≤ stride - 1 := by
  have hdiv : stride * (p / stride) + p % stride = p := Nat.div_add_mod p stride
  have hmod : p % stride < stride := Nat.mod_lt p (Nat.zero_lt_of_lt h)
  -- Either `p / stride` positions are kept, or one more.
  rw [kept_eq h, abs_le]
  split
  · rw [Nat.cast_add, Nat.cast_one, mul_add, mul_one]
    constructor <;> omega
  · rw [Nat.add_zero]
    constructor <;> omega

/-- A position is kept for exactly one offset. -/
theorem sum_ite_mod_eq {stride : ℕ} (h : 0 < stride) (i c : ℕ) :
    (∑ offset : Fin stride, if i % stride = offset then c else 0) = c := by
  rw [Finset.sum_eq_single (⟨i % stride, Nat.mod_lt i h⟩ : Fin stride)]
  · simp
  · intro offset _ hne
    refine if_neg fun heq => hne ?_
    exact Fin.ext heq.symm
  · simp

theorem kept_mul {stride offset : ℕ} (h : offset < stride) (m : ℕ) :
    kept stride offset (m * stride) = m := by
  rw [kept_eq h, Nat.mul_div_cancel _ (Nat.zero_lt_of_lt h), Nat.mul_mod_left]
  simp

/-! ### Items -/

/-- The items kept of a list whose first item is at the position `start`. -/
def everyNthFrom (stride offset start : ℕ) : List α → List α
  | [] => []
  | x :: xs =>
    if start % stride = offset then x :: everyNthFrom stride offset (start + 1) xs
    else everyNthFrom stride offset (start + 1) xs

theorem filterMap_zipIdx_eq (stride offset start : ℕ) (xs : List α) :
    ((xs.zipIdx start).filterMap fun (x, i) => if i % stride = offset then some x else none)
      = everyNthFrom stride offset start xs := by
  induction xs generalizing start with
  | nil => rfl
  | cons x xs ih =>
    rw [List.zipIdx_cons, List.filterMap_cons, everyNthFrom, ih]
    by_cases h : start % stride = offset
    · simp [h]
    · simp [h]

theorem everyNth_eq (stride offset : ℕ) (xs : List α) :
    everyNth stride offset xs = everyNthFrom stride offset 0 xs :=
  filterMap_zipIdx_eq stride offset 0 xs

theorem everyNthFrom_append (stride offset start : ℕ) (xs ys : List α) :
    everyNthFrom stride offset start (xs ++ ys)
      = everyNthFrom stride offset start xs
        ++ everyNthFrom stride offset (start + xs.length) ys := by
  induction xs generalizing start with
  | nil => rfl
  | cons x xs ih =>
    rw [List.cons_append, everyNthFrom, everyNthFrom, ih, List.length_cons,
      Nat.add_assoc, Nat.add_comm 1]
    split <;> rfl

theorem everyNthFrom_sublist (stride offset start : ℕ) (xs : List α) :
    (everyNthFrom stride offset start xs).Sublist xs := by
  induction xs generalizing start with
  | nil => exact List.Sublist.slnil
  | cons x xs ih =>
    rw [everyNthFrom]
    split
    · exact (ih _).cons_cons x
    · exact (ih _).cons x

theorem kept_add_length_everyNthFrom (stride offset start : ℕ) (xs : List α) :
    kept stride offset start + (everyNthFrom stride offset start xs).length
      = kept stride offset (start + xs.length) := by
  induction xs generalizing start with
  | nil => rfl
  | cons x xs ih =>
    have hstep := ih (start + 1)
    rw [kept_succ] at hstep
    rw [everyNthFrom, List.length_cons, Nat.add_comm xs.length, ← Nat.add_assoc, ← hstep]
    split
    · rw [List.length_cons]; omega
    · omega

theorem sum_countP_everyNthFrom {stride : ℕ} (h : 0 < stride) (P : α → Bool) (start : ℕ)
    (xs : List α) :
    ∑ offset : Fin stride, (everyNthFrom stride offset start xs).countP P = xs.countP P := by
  induction xs generalizing start with
  | nil => simp [everyNthFrom]
  | cons x xs ih =>
    have hstep : ∀ offset : Fin stride, (everyNthFrom stride offset start (x :: xs)).countP P
        = (everyNthFrom stride offset (start + 1) xs).countP P
          + if start % stride = offset then (if P x then 1 else 0) else 0 := by
      intro offset
      rw [everyNthFrom]
      split
      · rw [List.countP_cons]
      · rfl
    simp only [hstep, Finset.sum_add_distrib, ih, sum_ite_mod_eq h, List.countP_cons]

theorem everyNth_sublist (stride offset : ℕ) (xs : List α) :
    (everyNth stride offset xs).Sublist xs := by
  rw [everyNth_eq]
  exact everyNthFrom_sublist stride offset 0 xs

theorem Sorted.everyNth {xs : List α} (h : Sorted cmp xs) (stride offset : ℕ) :
    Sorted cmp (everyNth stride offset xs) :=
  List.Pairwise.sublist (everyNth_sublist stride offset xs) h

/-- The number of kept items is that of kept positions. -/
theorem length_everyNth (stride offset : ℕ) (xs : List α) :
    (everyNth stride offset xs).length = kept stride offset xs.length := by
  have h := kept_add_length_everyNthFrom stride offset 0 xs
  rw [everyNth_eq]
  simpa [kept] using h

theorem length_everyNth_of_eq_mul {stride offset m : ℕ} (h : offset < stride) {xs : List α}
    (hlen : xs.length = stride * m) : (everyNth stride offset xs).length = m := by
  rw [length_everyNth, hlen, Nat.mul_comm, kept_mul h]

/-- Each item is kept for exactly one offset. -/
theorem sum_countP_everyNth {stride : ℕ} (h : 0 < stride) (P : α → Bool) (xs : List α) :
    ∑ offset : Fin stride, (everyNth stride offset xs).countP P = xs.countP P := by
  simp only [everyNth_eq]
  exact sum_countP_everyNthFrom h P 0 xs

/-! ### Initial properties -/

/-- A property that everything at or below an item with the property has. -/
def IsInitial (cmp : α → α → Ordering) (P : α → Bool) : Prop :=
  ∀ ⦃x y⦄, (cmp x y).isLE → P y → P x

theorem isInitial_isLT [Std.TransCmp cmp] (x : α) :
    IsInitial cmp fun y => (cmp y x).isLT := by
  intro y z hyz hz
  have hlt : cmp z x = .lt := Ordering.isLT_iff_eq_lt.mp hz
  exact Ordering.isLT_iff_eq_lt.mpr (Std.TransCmp.lt_of_isLE_of_lt hyz hlt)

/-- In a sorted list the items with an initial property come first. -/
theorem IsInitial.exists_append {P : α → Bool} (hP : IsInitial cmp P) {xs : List α}
    (h : Sorted cmp xs) :
    ∃ ys zs, xs = ys ++ zs ∧ (∀ y ∈ ys, P y) ∧ ∀ z ∈ zs, ¬ P z := by
  induction xs with
  | nil => exact ⟨[], [], rfl, by simp, by simp⟩
  | cons x xs ih =>
    obtain ⟨hx, hxs⟩ := List.pairwise_cons.mp h
    by_cases hPx : P x
    · obtain ⟨ys, zs, rfl, hys, hzs⟩ := ih hxs
      exact ⟨x :: ys, zs, rfl, by simpa [hPx] using hys, hzs⟩
    · refine ⟨[], x :: xs, rfl, by simp, ?_⟩
      intro z hz hPz
      rcases List.mem_cons.mp hz with rfl | hz
      · exact hPx hPz
      · exact hPx (hP (hx z hz) hPz)

/-- Of a sorted list, the kept items with an initial property are those at the kept
positions among the first ones. -/
theorem countP_everyNth {P : α → Bool} (hP : IsInitial cmp P) (stride offset : ℕ) {xs : List α}
    (h : Sorted cmp xs) :
    (everyNth stride offset xs).countP P = kept stride offset (xs.countP P) := by
  obtain ⟨ys, zs, rfl, hys, hzs⟩ := hP.exists_append h
  -- All of `ys` counts, kept or not, and nothing of `zs` does.
  have hfirst : ys.countP P = ys.length := List.countP_eq_length.mpr hys
  have hlast : zs.countP P = 0 := List.countP_eq_zero.mpr hzs
  have hkept : (everyNthFrom stride offset 0 ys).countP P
      = (everyNthFrom stride offset 0 ys).length :=
    List.countP_eq_length.mpr fun y hy => hys y ((everyNthFrom_sublist _ _ _ _).mem hy)
  have hrest : (everyNthFrom stride offset (0 + ys.length) zs).countP P = 0 :=
    List.countP_eq_zero.mpr fun z hz => hzs z ((everyNthFrom_sublist _ _ _ _).mem hz)
  rw [everyNth_eq, everyNthFrom_append, List.countP_append, List.countP_append, hfirst, hlast,
    hkept, hrest, Nat.add_zero, Nat.add_zero, ← everyNth_eq, length_everyNth]

end QuantileSketch
