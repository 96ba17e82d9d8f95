/-
Ranks as rational numbers, and the places they stand for.

A rank that is accepted is a float from zero to one, and is compared as the rational number
it stands for, `rankValue` (`rankValue_lt_iff`).  The place of a rank in a stream is a product
that is rounded, and then has its fraction dropped, and neither changes the order:

* `checkRanks_eq_ok_iff` — ranks that are accepted in a row increase from each to all later
  ones, although only neighbours are compared;
* `position_eq` — the place of a rank is the whole part of the product, and the last place if it
  is beyond that;
* `position_bounds` — the product is rounded to the next whole number at most;
* `position_mono` — a greater rank does not stand for an earlier place.
-/
import QuantileSketch.Proofs.Products
import QuantileSketch.Proofs.Snapshot
import QuantileSketch.Rank

open Float.Model Float.Model.UnpackedFloat
open QuantileSketch.Rounding

namespace QuantileSketch

/-! ### Comparing floats -/

theorem lt_iff_compare {a b : Float} :
    a < b ↔ a.toModel.unpack.compare b.toModel.unpack = some .lt := by
  show decide (a.toModel.unpack.lt b.toModel.unpack = true) = true ↔ _
  rw [decide_eq_true_iff, UnpackedFloat.lt, beq_iff_eq]

theorem le_iff_compare {a b : Float} :
    a ≤ b ↔ (a.toModel.unpack.compare b.toModel.unpack).any Ordering.isLE = true := by
  show decide (a.toModel.unpack.le b.toModel.unpack = true) = true ↔ _
  rw [decide_eq_true_iff, UnpackedFloat.le]

theorem beq_iff_compare {a b : Float} :
    (a == b) = true ↔ a.toModel.unpack.compare b.toModel.unpack = some .eq := by
  show a.toModel.unpack.beq b.toModel.unpack = true ↔ _
  rw [UnpackedFloat.beq, beq_iff_eq]

theorem Rounding.Magnitude.le_iff {a b : Float} {x y : ℚ} (ha : Magnitude a.toModel.unpack x)
    (hb : Magnitude b.toModel.unpack y) : a ≤ b ↔ x ≤ y := by
  rw [le_iff_compare, ha.compare_eq hb, Option.any_some, Ordering.isLE_iff_ne_gt]
  exact compare_le_iff_le

/-! ### Ranks that are accepted -/

/-- The rational number that a rank stands for. -/
def rankValue (rank : Float) : ℚ :=
  match rank.toModel.unpack with
  | .finite _ m e _ => m * 2 ^ e
  | _ => 0

theorem checkRank_eq_ok_iff {rank : Float} :
    checkRank rank = .ok () ↔ 0 ≤ rank ∧ rank ≤ 1 := by
  rw [checkRank]
  split <;> simp [*]

/-- A rank that is accepted is not negative, and finite. -/
theorem magnitude_rankValue {rank : Float} (h : checkRank rank = .ok ()) :
    Magnitude rank.toModel.unpack (rankValue rank) := by
  obtain ⟨hzero, hone⟩ := checkRank_eq_ok_iff.mp h
  rw [le_iff_compare] at hzero hone
  rw [rankValue]
  cases hu : rank.toModel.unpack with
  | notANumber =>
    rw [hu] at hzero
    cases hzero
  | infinity s =>
    rw [hu] at hzero hone
    cases s with
    | negative => cases hzero
    | positive => cases hone
  | zero s => exact .zero s
  | finite s m e hm =>
    rw [hu] at hzero
    cases s with
    | negative => cases hzero
    | positive => exact .positive hm (canonical_of_unpack hu)

theorem rankValue_lt_iff {rank₁ rank₂ : Float} (h₁ : checkRank rank₁ = .ok ())
    (h₂ : checkRank rank₂ = .ok ()) : rank₁ < rank₂ ↔ rankValue rank₁ < rankValue rank₂ := by
  rw [lt_iff_compare, (magnitude_rankValue h₁).compare_eq (magnitude_rankValue h₂),
    Option.some_inj, compare_lt_iff_lt]

theorem rankValue_eq_iff {rank₁ rank₂ : Float} (h₁ : checkRank rank₁ = .ok ())
    (h₂ : checkRank rank₂ = .ok ()) :
    (rank₁ == rank₂) = true ↔ rankValue rank₁ = rankValue rank₂ := by
  rw [beq_iff_compare, (magnitude_rankValue h₁).compare_eq (magnitude_rankValue h₂),
    Option.some_inj, compare_eq_iff_eq]

theorem rankValue_le_iff {rank₁ rank₂ : Float} (h₁ : checkRank rank₁ = .ok ())
    (h₂ : checkRank rank₂ = .ok ()) : rank₁ ≤ rank₂ ↔ rankValue rank₁ ≤ rankValue rank₂ :=
  (magnitude_rankValue h₁).le_iff (magnitude_rankValue h₂)

theorem rankValue_le_one {rank : Float} (h : checkRank rank = .ok ()) : rankValue rank ≤ 1 := by
  have hone := magnitude_ofNat_of_lt (show 1 < 2 ^ 53 by decide)
  rw [Nat.cast_one] at hone
  exact ((magnitude_rankValue h).le_iff hone).mp (checkRank_eq_ok_iff.mp h).2

theorem checkRank_zero : checkRank 0 = .ok () := rfl

theorem checkRank_one : checkRank 1 = .ok () := rfl

theorem beq_eq_false_of_lt {rank₁ rank₂ : Float} (h₁ : checkRank rank₁ = .ok ())
    (h₂ : checkRank rank₂ = .ok ()) (h : rank₁ < rank₂) :
    (rank₁ == rank₂) = false ∧ (rank₂ == rank₁) = false := by
  rw [rankValue_lt_iff h₁ h₂] at h
  rw [Bool.eq_false_iff, Bool.eq_false_iff, ne_eq, ne_eq, rankValue_eq_iff h₁ h₂,
    rankValue_eq_iff h₂ h₁]
  exact ⟨h.ne, h.ne'⟩

/-- What lies strictly between zero and one is accepted, and is neither of them. -/
theorem checkRank_of_lt {rank : Float} (h0 : 0 < rank) (h1 : rank < 1) :
    checkRank rank = .ok () ∧ (rank == 0) = false ∧ (rank == 1) = false := by
  have hrank : checkRank rank = .ok () := by
    refine checkRank_eq_ok_iff.mpr ⟨le_iff_compare.mpr ?_, le_iff_compare.mpr ?_⟩
    · rw [lt_iff_compare.mp h0]
      rfl
    · rw [lt_iff_compare.mp h1]
      rfl
  exact ⟨hrank, (beq_eq_false_of_lt checkRank_zero hrank h0).2,
    (beq_eq_false_of_lt hrank checkRank_one h1).1⟩

/-- Only the greater one of two ranks can be one, and only the lesser one zero. -/
theorem beq_ends_of_lt {rank₁ rank₂ : Float} (h₁ : checkRank rank₁ = .ok ())
    (h₂ : checkRank rank₂ = .ok ()) (h : rank₁ < rank₂) :
    (rank₁ == 1) = false ∧ (rank₂ == 0) = false := by
  have hzero := (checkRank_eq_ok_iff.mp h₁).1
  have hone := (checkRank_eq_ok_iff.mp h₂).2
  rw [rankValue_le_iff checkRank_zero h₁] at hzero
  rw [rankValue_le_iff h₂ checkRank_one] at hone
  rw [rankValue_lt_iff h₁ h₂] at h
  refine ⟨(beq_eq_false_of_lt h₁ checkRank_one ?_).1, (beq_eq_false_of_lt checkRank_zero h₂ ?_).2⟩
  · exact (rankValue_lt_iff h₁ checkRank_one).mpr (h.trans_le hone)
  · exact (rankValue_lt_iff checkRank_zero h₂).mpr (hzero.trans_lt h)

/-! ### Ranks in a row -/

/-- Comparing neighbours finds out whether ranks increase. -/
theorem ranksIncrease_iff {ranks : List Float} (h : ∀ rank ∈ ranks, checkRank rank = .ok ()) :
    ranksIncrease ranks = true ↔ ranks.Pairwise (· < ·) := by
  induction ranks with
  | nil => simp [ranksIncrease]
  | cons r₁ ranks ih =>
    cases ranks with
    | nil => simp [ranksIncrease]
    | cons r₂ rest =>
      obtain ⟨h₁, htail⟩ := List.forall_mem_cons.mp h
      obtain ⟨h₂, hrest⟩ := List.forall_mem_cons.mp htail
      rw [ranksIncrease, Bool.and_eq_true, decide_eq_true_iff, ih htail,
        List.pairwise_cons (a := r₁)]
      constructor
      · rintro ⟨hlt, hpairwise⟩
        refine ⟨fun r hr => ?_, hpairwise⟩
        rcases List.mem_cons.mp hr with rfl | hr
        · exact hlt
        · have hnext := (List.pairwise_cons.mp hpairwise).1 r hr
          rw [rankValue_lt_iff h₁ h₂] at hlt
          rw [rankValue_lt_iff h₂ (hrest r hr)] at hnext
          exact (rankValue_lt_iff h₁ (hrest r hr)).mpr (hlt.trans hnext)
      · rintro ⟨hlt, hpairwise⟩
        exact ⟨hlt r₂ List.mem_cons_self, hpairwise⟩

theorem checkRanks_eq_ok_iff {ranks : List Float} :
    checkRanks ranks = .ok () ↔
      (∀ rank ∈ ranks, checkRank rank = .ok ()) ∧ ranks.Pairwise (· < ·) := by
  have hforM : ranks.forM checkRank = .ok () ↔ ∀ rank ∈ ranks, checkRank rank = .ok () :=
    forM_eq_ok_iff
  rw [checkRanks]
  cases hranks : ranks.forM checkRank with
  | error fault =>
    refine iff_of_false (by intro h; cases h) fun h => ?_
    rw [hforM.mpr h.1] at hranks
    cases hranks
  | ok u =>
    have hall := hforM.mp hranks
    show (if ranksIncrease ranks then .ok () else .error .ranksNotIncreasing : Except Fault Unit)
      = .ok () ↔ _
    rw [← ranksIncrease_iff hall]
    split <;> simp_all

/-! ### Places -/

theorem toUInt64_mul_toNat (a b : Float) :
    (a * b).toUInt64.toNat = truncated (.mul .binary64 a.toModel.unpack b.toModel.unpack) := rfl

/-- **The place of a rank** is the whole part of its product with the number of items, both
rounded as floats are, but no place after the last one. -/
theorem position_eq {rank : Float} (h : checkRank rank = .ok ()) {n : ℕ} (hn : n < 2 ^ 64) :
    position rank n = min ⌊nearest (rankValue rank * nearest n)⌋₊ (n - 1) := by
  rw [position, toUInt64_mul_toNat, (magnitude_rankValue h).truncated_mul (magnitude_ofNat hn),
    min_assoc, min_eq_right (show n - 1 ≤ 2 ^ 64 - 1 by omega)]

/-- The float `0.3` is less than three tenths, but its product with ten is rounded to three. -/
example : position 0.3 10 = 3 ∧ position 0.29 100 = 28 ∧ position 1 10 = 9 := by
  decide

/-- For numbers of items with no more than 53 digits, the place is that of the exact product, or
the next one. -/
theorem position_bounds {rank : Float} (h : checkRank rank = .ok ()) {n : ℕ} (hn : n < 2 ^ 53) :
    min ⌊rankValue rank * n⌋₊ (n - 1) ≤ position rank n
      ∧ position rank n ≤ min ⌈rankValue rank * n⌉₊ (n - 1) := by
  have hpos : 0 ≤ rankValue rank * n := mul_nonneg (magnitude_rankValue h).nonneg n.cast_nonneg
  have hle : rankValue rank * n ≤ n := mul_le_of_le_one_left n.cast_nonneg (rankValue_le_one h)
  rw [position_eq h (hn.trans (by decide)), nearest_natCast hn]
  constructor
  · refine min_le_min_right _ (Nat.le_floor (natCast_le_nearest (Nat.floor_le hpos) ?_))
    exact (Nat.floor_le_of_le hle).trans_lt hn
  · refine min_le_min_right _ (Nat.floor_le_of_le (nearest_le_natCast hpos (Nat.le_ceil _) ?_))
    exact (Nat.ceil_le.mpr hle).trans_lt hn

/-- A greater rank stands for no earlier place. -/
theorem position_mono {rank₁ rank₂ : Float} (h₁ : checkRank rank₁ = .ok ())
    (h₂ : checkRank rank₂ = .ok ()) (h : rank₁ ≤ rank₂) (n : ℕ) :
    position rank₁ n ≤ position rank₂ n := by
  rw [position, position, toUInt64_mul_toNat, toUInt64_mul_toNat]
  have hle := (magnitude_rankValue h₁).truncated_mul_le (magnitude_rankValue h₂)
    ((rankValue_le_iff h₁ h₂).mp h) (b := (Float.ofNat n).toModel.toBits.toBitVec) rfl
  exact min_le_min_right _ hle

end QuantileSketch
