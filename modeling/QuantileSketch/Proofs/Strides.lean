/-
Which items a stride selects.

A block is thinned out by skipping its first `offset` items and taking every `stride`-th one
from there on.

* `stepBy` — the first item of a list and every `stride`-th one after it;
* `getElem?_everyNth`, `everyNth_eq_stepBy` — the items that are kept, by their positions and
  step by step;
* `selected` — their positions in a list of `m * stride` items;
* `strided_selection` — what is kept, and how many of the first `p` items are.

Design notes: the positions are what is kept of the list of all positions, which is in order.
So the number of them below `p` is that of the kept items below an item of any sorted list,
and so is its sum over all offsets.
-/
import Mathlib.Tactic.Ring
import QuantileSketch.Proofs.Selection

open scoped BigOperators

namespace QuantileSketch

variable {α : Type}

/-! ### Taking steps -/

/-- The first item of a list and every `stride`-th one after it. -/
def stepBy (stride : ℕ) : List α → List α
  | [] => []
  | x :: xs => x :: stepBy stride (xs.drop (stride - 1))
termination_by xs => xs.length
decreasing_by
  rw [List.length_drop, List.length_cons]
  omega

theorem getElem?_stepBy {stride : ℕ} (h : 0 < stride) (xs : List α) (j : ℕ) :
    (stepBy stride xs)[j]? = xs[j * stride]? := by
  induction j generalizing xs with
  | zero => cases xs <;> simp [stepBy]
  | succ j ih =>
    cases xs with
    | nil => simp [stepBy]
    | cons x xs =>
      have hstep : (j + 1) * stride = stride - 1 + j * stride + 1 := by
        rw [Nat.succ_mul]
        omega
      rw [stepBy, List.getElem?_cons_succ, ih, List.getElem?_drop, hstep,
        List.getElem?_cons_succ]

/-! ### Kept items by their positions -/

/-- Below the `j`-th kept position `j` positions are kept. -/
theorem kept_add_mul {stride offset : ℕ} (h : offset < stride) (j : ℕ) :
    kept stride offset (offset + j * stride) = j := by
  rw [kept_eq h, Nat.add_mul_div_right _ _ (Nat.zero_lt_of_lt h), Nat.div_eq_of_lt h,
    Nat.add_mul_mod_self_right, Nat.mod_eq_of_lt h, if_neg (Nat.lt_irrefl _)]
  omega

theorem kept_mono (stride offset : ℕ) {p q : ℕ} (h : p ≤ q) :
    kept stride offset p ≤ kept stride offset q :=
  Nat.count_monotone _ h

/-- The `j`-th kept item stands `j` strides after the first one. -/
theorem getElem?_everyNth {stride offset : ℕ} (h : offset < stride) (xs : List α) (j : ℕ) :
    (everyNth stride offset xs)[j]? = xs[offset + j * stride]? := by
  by_cases hp : offset + j * stride < xs.length
  · -- What is kept before this position are `j` items, and then this one is kept.
    have hsplit := List.take_append_drop (offset + j * stride) xs
    have hlength : (everyNth stride offset (xs.take (offset + j * stride))).length = j := by
      rw [length_everyNth, List.length_take_of_le hp.le, kept_add_mul h]
    have hmod : (offset + j * stride) % stride = offset := by
      rw [Nat.add_mul_mod_self_right, Nat.mod_eq_of_lt h]
    conv_lhs => rw [← hsplit]
    rw [everyNth_eq, everyNthFrom_append, ← everyNth_eq, List.getElem?_append_right hlength.le,
      hlength, Nat.sub_self, Nat.zero_add, List.length_take_of_le hp.le,
      List.drop_eq_getElem_cons hp, everyNthFrom, if_pos hmod, List.getElem?_cons_zero,
      List.getElem?_eq_getElem hp]
  · -- No more items are kept than positions up to the end of the list.
    rw [Nat.not_lt] at hp
    have hlength : (everyNth stride offset xs).length ≤ j := by
      rw [length_everyNth]
      exact (kept_mono stride offset hp).trans_eq (kept_add_mul h j)
    rw [List.getElem?_eq_none hlength, List.getElem?_eq_none hp]

/-- Thinning out is skipping items and then taking steps. -/
theorem everyNth_eq_stepBy {stride offset : ℕ} (h : offset < stride) (xs : List α) :
    everyNth stride offset xs = stepBy stride (xs.drop offset) := by
  refine List.ext_getElem? fun j => ?_
  rw [getElem?_everyNth h, getElem?_stepBy (Nat.zero_lt_of_lt h), List.getElem?_drop]

/-! ### Positions -/

/-- The positions that are kept of `m * stride` ones, in order. -/
def selected (stride m offset : ℕ) : List ℕ := (List.range m).map fun j => offset + j * stride

/-- A kept position is there. -/
theorem add_mul_lt {stride offset m j : ℕ} (h : offset < stride) (hj : j < m) :
    offset + j * stride < m * stride :=
  calc offset + j * stride < stride + j * stride := Nat.add_lt_add_right h _
    _ = (j + 1) * stride := by ring
    _ ≤ m * stride := Nat.mul_le_mul_right stride hj

/-- The kept positions are what is kept of the list of all positions. -/
theorem selected_eq {stride offset : ℕ} (h : offset < stride) (m : ℕ) :
    selected stride m offset = everyNth stride offset (List.range (m * stride)) := by
  have hlength : (everyNth stride offset (List.range (m * stride))).length = m :=
    length_everyNth_of_eq_mul h (by rw [List.length_range, Nat.mul_comm])
  refine List.ext_getElem? fun j => ?_
  rw [selected, List.getElem?_map]
  by_cases hj : j < m
  · rw [List.getElem?_range hj, getElem?_everyNth h, List.getElem?_range (add_mul_lt h hj)]
    rfl
  · rw [Nat.not_lt] at hj
    rw [List.getElem?_eq_none (by rwa [List.length_range]),
      List.getElem?_eq_none (by rwa [hlength])]
    rfl

theorem countP_range {p n : ℕ} (h : p ≤ n) : (List.range n).countP (· < p) = p := by
  obtain ⟨d, rfl⟩ := Nat.exists_eq_add_of_le h
  rw [List.range_add, List.countP_append, List.countP_eq_length.mpr, List.length_range,
    List.countP_eq_zero.mpr, Nat.add_zero]
  · intro i hi
    obtain ⟨j, -, rfl⟩ := List.mem_map.mp hi
    simp
  · intro i hi
    exact decide_eq_true (List.mem_range.mp hi)

/-- The number of kept positions below `p`. -/
theorem countP_selected {stride offset m p : ℕ} (h : offset < stride) (hp : p ≤ m * stride) :
    (selected stride m offset).countP (· < p) = kept stride offset p := by
  have hinitial : IsInitial compare fun i : ℕ => decide (i < p) := by
    intro i j hij hj
    exact decide_eq_true ((Nat.isLE_compare.mp hij).trans_lt (of_decide_eq_true hj))
  have hsorted : Sorted compare (List.range (m * stride)) :=
    List.pairwise_le_range.imp Nat.isLE_compare.mpr
  rw [selected_eq h, countP_everyNth hinitial stride offset hsorted, countP_range hp]

/-- **The items that a stride selects.**  Of `m * stride` items, those are kept that stand
`j` strides after the offset, for each `j` below `m`, in order.  Of the first `p` items as
many are kept as there are such positions below `p`; standing for `stride` items each, they
are off by less than one stride, and for all offsets together they are `p`. -/
theorem strided_selection {stride offset m : ℕ} (h : offset < stride) {xs : List α}
    (hlength : xs.length = m * stride) :
    everyNth stride offset xs = stepBy stride (xs.drop offset)
      ∧ (everyNth stride offset xs).length = m
      ∧ (∀ j < m, ∃ hj : offset + j * stride < xs.length,
          (everyNth stride offset xs)[j]? = some xs[offset + j * stride])
      ∧ ∀ p ≤ xs.length,
          |(stride * (selected stride m offset).countP (· < p) : ℤ) - p| ≤ stride - 1
          ∧ ∑ o : Fin stride, (selected stride m o).countP (· < p) = p := by
  refine ⟨everyNth_eq_stepBy h xs, ?_, ?_, ?_⟩
  · exact length_everyNth_of_eq_mul h (by rw [hlength, Nat.mul_comm])
  · intro j hj
    have hlt : offset + j * stride < xs.length := by
      rw [hlength]
      exact add_mul_lt h hj
    refine ⟨hlt, ?_⟩
    rw [getElem?_everyNth h, List.getElem?_eq_getElem hlt]
  · intro p hp
    rw [hlength] at hp
    constructor
    · rw [countP_selected h hp]
      exact abs_stride_mul_kept_sub_le h p
    · have hsum := sum_countP_everyNth (Nat.zero_lt_of_lt h) (· < p) (List.range (m * stride))
      rw [countP_range hp] at hsum
      simp only [selected_eq (Fin.is_lt _), hsum]

theorem strided_selection_ofTwelve :
    2 < 4 ∧ [1, 3, 4, 6, 7, 8, 8, 9, 11, 12, 15, 16].length = 3 * 4
      ∧ everyNth 4 2 [1, 3, 4, 6, 7, 8, 8, 9, 11, 12, 15, 16] = [4, 8, 15]
      ∧ |(4 * (selected 4 3 2).countP (· < 7) : ℤ) - 7| ≤ 4 - 1
      ∧ ∑ o : Fin 4, (selected 4 3 o).countP (· < 7) = 7 := by
  have hlength : [1, 3, 4, 6, 7, 8, 8, 9, 11, 12, 15, 16].length = 3 * 4 := rfl
  obtain ⟨-, -, -, hprefix⟩ := strided_selection (show 2 < 4 by decide) hlength
  obtain ⟨hclose, hsum⟩ := hprefix 7 (by decide)
  exact ⟨by decide, hlength, by decide, hclose, hsum⟩

end QuantileSketch
