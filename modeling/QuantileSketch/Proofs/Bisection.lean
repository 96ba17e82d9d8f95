/-
The rank error never increases with the block size.

Rank errors are found by bisection, and two searches that differ in their test alone are
run side by side.  They keep the same pair of ends until one of them moves its lower end and
the other its upper one, and from then on the midpoint they disagree about lies between
what they find:

* `bisect_eq`, `midpoint_outside_iff` — a search can compare values where their places are in
  their order, as those of positive finite floats are;
* `le_place_bisect`, `place_bisect_le` — a search ends between its ends;
* `place_bisect_mono` — a test that accepts more finds no less;
* `rankError_antitone` — a greater block size has no greater rank error.

Design notes: nothing is assumed of the test, which need not be monotone, nor of the midpoint
and the tolerance.  So the logarithm and the root in the theoretical size do not matter, and
the one product that does, that of the block size with a constant, is rounded to a greater
float for a greater block size.
-/
import QuantileSketch.Proofs.FloatOrder

open QuantileSketch.Rounding

namespace QuantileSketch

/-! ### Searches side by side -/

section

variable {β : Type} {place : β → ℕ} {midpoint : β → β → β} {wide : β → β → Bool}
  {covers covers' : β → Bool}

/-- One step of a search that compares values and not their places: it ends if the midpoint is
at one of the ends or beyond. -/
theorem bisect_eq [LE β] [DecidableLE β] {lo hi : β}
    (h : (midpoint lo hi ≤ lo ∨ hi ≤ midpoint lo hi) ↔
      ¬(place lo < place (midpoint lo hi) ∧ place (midpoint lo hi) < place hi)) :
    bisect place midpoint wide covers lo hi
      = if wide lo hi then
          if midpoint lo hi ≤ lo ∨ hi ≤ midpoint lo hi then lo
          else if covers (midpoint lo hi) then
            bisect place midpoint wide covers (midpoint lo hi) hi
          else bisect place midpoint wide covers lo (midpoint lo hi)
        else lo := by
  rw [bisect]
  simp only [h, dite_eq_ite, ite_not]

theorem le_place_bisect (lo hi : β) :
    place lo ≤ place (bisect place midpoint wide covers lo hi) := by
  fun_induction bisect place midpoint wide covers lo hi with
  | case1 lo hi hwide hbetween hmid ih => exact hbetween.1.le.trans ih
  | case2 lo hi hwide hbetween hmid ih => exact ih
  | case3 lo hi hwide hbetween => exact le_rfl
  | case4 lo hi hwide => exact le_rfl

theorem place_bisect_le {lo hi : β} (h : place lo ≤ place hi) :
    place (bisect place midpoint wide covers lo hi) ≤ place hi := by
  fun_induction bisect place midpoint wide covers lo hi with
  | case1 lo hi hwide hbetween hmid ih => exact ih hbetween.2.le
  | case2 lo hi hwide hbetween hmid ih => exact (ih hbetween.1.le).trans hbetween.2.le
  | case3 lo hi hwide hbetween => exact h
  | case4 lo hi hwide => exact h

/-- A test that accepts all that another one does finds no less. -/
theorem place_bisect_mono (hcovers : ∀ x, covers' x = true → covers x = true) (lo hi : β) :
    place (bisect place midpoint wide covers' lo hi)
      ≤ place (bisect place midpoint wide covers lo hi) := by
  fun_induction bisect place midpoint wide covers lo hi with
  | case1 lo hi hwide hbetween hmid ih =>
    rw [bisect, if_pos hwide, dif_pos hbetween]
    by_cases hmid' : covers' (midpoint lo hi) = true
    · rw [if_pos hmid']
      exact ih
    · -- From here the searches are on different sides of the midpoint.
      rw [if_neg hmid']
      exact (place_bisect_le hbetween.1.le).trans (le_place_bisect _ _)
  | case2 lo hi hwide hbetween hmid ih =>
    rw [bisect, if_pos hwide, dif_pos hbetween, if_neg fun h => hmid (hcovers _ h)]
    exact ih
  | case3 lo hi hwide hbetween => rw [bisect, if_pos hwide, dif_neg hbetween]
  | case4 lo hi hwide => rw [bisect, if_neg hwide]

end

namespace RankError

/-! ### Searches among floats -/

section

variable {midpoint : Float → Float → Float} {wide : Float → Float → Bool} {covers : Float → Bool}

/-- A midpoint is at one of the ends or beyond if its place is not between theirs. -/
theorem midpoint_outside_iff {lo hi : Float} (hlo : IsPositive lo) (hhi : IsPositive hi)
    (hmid : (midpoint lo hi).isNaN = false) :
    (midpoint lo hi ≤ lo ∨ hi ≤ midpoint lo hi) ↔
      ¬(place lo < place (midpoint lo hi) ∧ place (midpoint lo hi) < place hi) := by
  rw [place_between_iff hlo hhi, not_and_or, not_lt_iff_le hlo.isNaN_eq_false hmid,
    not_lt_iff_le hmid hhi.isNaN_eq_false]

theorem isPositive_bisect {lo hi : Float} (hlo : IsPositive lo) (hhi : IsPositive hi)
    (h : place lo ≤ place hi) : IsPositive (bisect place midpoint wide covers lo hi) :=
  isPositive_of_place_le hlo hhi (le_place_bisect lo hi) (place_bisect_le h)

end

theorem isPositive_leastError : IsPositive leastError := ⟨by decide, by decide⟩

theorem isPositive_greatestError : IsPositive greatestError := ⟨by decide, by decide +kernel⟩

theorem place_leastError_lt : place leastError < place greatestError := by
  decide +kernel

/-- The rank error that a block size guarantees, found with a midpoint, a tolerance and
theoretical sizes of any kind. -/
def search (midpoint : Float → Float → Float) (wide : Float → Float → Bool)
    (size : Float → Float) (k : ℕ) : Float :=
  bisect place midpoint wide (fun eps => Float.ofNat k * overstatement ≤ size eps) leastError
    greatestError

theorem rankError_eq_search (k : ℕ) :
    rankError k = search (fun lo hi => (lo + hi) / 2.0)
      (fun lo hi => tolerance ≤ (hi - lo) / lo) theoreticalSize k := rfl

/-! ### Theoretical sizes -/

/-- The number that the factor stands for, which is a little less than four thirds. -/
def overstated : ℚ := (6004799503160661 : ℕ) * 2 ^ (-52 : ℤ)

theorem magnitude_overstatement : Magnitude overstatement.toModel.unpack overstated :=
  .positive (by decide) ⟨by decide, by decide, .inl (by decide)⟩

theorem overstated_pos : 0 < overstated := by
  rw [overstated]
  positivity

theorem overstated_le_two : overstated ≤ 2 := by
  rw [overstated]
  norm_num

theorem mul_overstated_mono {k₁ k₂ : ℕ} (hle : k₁ ≤ k₂) :
    k₁ * overstated ≤ k₂ * overstated :=
  mul_le_mul_of_nonneg_right (Nat.cast_le.mpr hle) overstated_pos.le

theorem mul_overstated_pos {k : ℕ} (hk : 0 < k) : 0 < k * overstated :=
  mul_pos (Nat.cast_pos.mpr hk) overstated_pos

/-- The theoretical size of blocks is the number nearest to the product. -/
theorem magnitude_mul_overstatement {k : ℕ} (hk : 0 < k) (h : k < 2 ^ 32) :
    Magnitude (Float.ofNat k * overstatement).toModel.unpack (nearest (k * overstated)) := by
  have hdouble : k * overstated ≤ (k * 2 : ℕ) := by
    rw [Nat.cast_mul, Nat.cast_ofNat]
    exact mul_le_mul_of_nonneg_left overstated_le_two k.cast_nonneg
  have hnearest : nearest (k * overstated) ≤ (k * 2 : ℕ) :=
    (nearest_mono (mul_overstated_pos hk) hdouble).trans_eq (nearest_natCast (by omega))
  exact (magnitude_ofNat_of_lt (by omega)).mul magnitude_overstatement
    (hnearest.trans_lt (natCast_lt_two_zpow (by omega)))

/-- What is no less than the theoretical size of blocks is no less than that of smaller
blocks. -/
theorem mul_overstatement_le {k₁ k₂ : ℕ} (hpos : 0 < k₁) (hle : k₁ ≤ k₂) (hlt : k₂ < 2 ^ 32)
    {size : Float} (h : Float.ofNat k₂ * overstatement ≤ size) :
    Float.ofNat k₁ * overstatement ≤ size := by
  have hlesser := magnitude_mul_overstatement hpos (hle.trans_lt hlt)
  have hgreater := magnitude_mul_overstatement (hpos.trans_le hle) hlt
  exact hlesser.le_trans hgreater
    (nearest_mono (mul_overstated_pos hpos) (mul_overstated_mono hle)) h

/-! ### The rank error of greater blocks -/

theorem search_antitone (midpoint : Float → Float → Float) (wide : Float → Float → Bool)
    (size : Float → Float) {k₁ k₂ : ℕ} (hpos : 0 < k₁) (hle : k₁ ≤ k₂) (hlt : k₂ < 2 ^ 32) :
    search midpoint wide size k₂ ≤ search midpoint wide size k₁ := by
  have hpositive : ∀ k, IsPositive (search midpoint wide size k) := fun k =>
    isPositive_bisect isPositive_leastError isPositive_greatestError place_leastError_lt.le
  rw [le_iff_place_le (hpositive k₂) (hpositive k₁)]
  refine place_bisect_mono ?_ leastError greatestError
  intro eps heps
  exact decide_eq_true (mul_overstatement_le hpos hle hlt (of_decide_eq_true heps))

end RankError

open RankError in
/-- **A greater block size has no greater rank error**, in whatever way the midpoints, the
tolerance and the theoretical sizes are computed. -/
theorem rankError_antitone {k₁ k₂ : ℕ} (hpos : 2 ≤ k₁) (hle : k₁ ≤ k₂) (hlt : k₂ < 2 ^ 32) :
    (∃ eps₁ eps₂, rankError? k₁ = .ok eps₁ ∧ rankError? k₂ = .ok eps₂ ∧ eps₂ ≤ eps₁) ∧
    ∀ (midpoint : Float → Float → Float) (wide : Float → Float → Bool) (size : Float → Float),
      search midpoint wide size k₂ ≤ search midpoint wide size k₁ := by
  have hsearch := fun midpoint wide size =>
    search_antitone midpoint wide size (show 0 < k₁ by omega) hle hlt
  refine ⟨⟨rankError k₁, rankError k₂, if_neg (by omega), if_neg (by omega), ?_⟩, hsearch⟩
  rw [rankError_eq_search, rankError_eq_search]
  exact hsearch _ _ _

open RankError in
theorem rankError_antitone_ofSixteen :
    (2 ≤ 16 ∧ 16 ≤ 128 ∧ 128 < 2 ^ 32) ∧
    (∃ eps₁ eps₂, rankError? 16 = .ok eps₁ ∧ rankError? 128 = .ok eps₂ ∧ eps₂ ≤ eps₁) ∧
    ∀ (midpoint : Float → Float → Float) (wide : Float → Float → Bool) (size : Float → Float),
      search midpoint wide size 128 ≤ search midpoint wide size 16 :=
  ⟨by decide, rankError_antitone (by decide) (by decide) (by decide)⟩

end QuantileSketch
