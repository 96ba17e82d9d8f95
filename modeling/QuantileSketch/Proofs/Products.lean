/-
Products and integers as floats.

What an operation on floats that are not negative gives is the number nearest to its exact
result:

* `magnitude_ofNat` — an integer as a float, which is the integer itself if it has no more than
  53 digits (`nearest_natCast`);
* `Magnitude.mul` — the product of two floats;
* `Magnitude.truncated_mul` — its whole part as a 64-bit integer;
* `Magnitude.truncated_mul_le` — whole parts of products with any float are in the order of
  what is multiplied.

Design notes: small and great integers become floats in different ways, but all of these round
once.
-/
import QuantileSketch.Proofs.Rounding

open Float.Model Float.Model.UnpackedFloat

namespace QuantileSketch.Rounding

/-! ### Integers that are floats -/

/-- A number with no digits after its last place is its own nearest number. -/
theorem nearest_eq_self {x : ℚ} {n : ℕ} (h : x = n * 2 ^ lastPlace x) : nearest x = x := by
  have hdiv : x / 2 ^ lastPlace x = n := by
    rw [div_eq_iff (two_zpow_pos _).ne']
    exact h
  rw [nearest, hdiv, nearestEven_natCast]
  exact h.symm

theorem lastPlace_natCast {n : ℕ} (h : 0 < n) : lastPlace n = n.log2 - 52 := by
  have hlog := log_mul_zpow h 0
  rw [zpow_zero, mul_one, add_zero] at hlog
  rw [lastPlace, hlog]
  omega

theorem nearest_natCast {n : ℕ} (h : n < 2 ^ 53) : nearest n = n := by
  rcases Nat.eq_zero_or_pos n with rfl | hpos
  · exact nearest_eq_self (n := 0) (by simp)
  · have hlog : n.log2 < 53 := (Nat.log2_lt hpos.ne').mpr h
    have hplace : lastPlace n = -((52 - n.log2 : ℕ) : ℤ) := by
      rw [lastPlace_natCast hpos]
      omega
    refine nearest_eq_self (n := n * 2 ^ (52 - n.log2)) ?_
    rw [hplace, zpow_neg, zpow_natCast]
    push_cast
    field_simp

theorem nearest_zero : nearest 0 = 0 := by
  have h := nearest_natCast (show 0 < 2 ^ 53 by decide)
  rwa [Nat.cast_zero] at h

theorem nearest_nonneg (x : ℚ) : 0 ≤ nearest x :=
  mul_nonneg (Nat.cast_nonneg _) (two_zpow_pos _).le

theorem nearest_le_natCast {x : ℚ} {n : ℕ} (hx : 0 ≤ x) (h : x ≤ n) (hn : n < 2 ^ 53) :
    nearest x ≤ n := by
  rcases hx.eq_or_lt with rfl | hpos
  · rw [nearest_zero]
    exact h
  · exact (nearest_mono hpos h).trans_eq (nearest_natCast hn)

theorem natCast_le_nearest {x : ℚ} {n : ℕ} (h : n ≤ x) (hn : n < 2 ^ 53) : n ≤ nearest x := by
  rcases Nat.eq_zero_or_pos n with rfl | hpos
  · rw [Nat.cast_zero]
    exact nearest_nonneg x
  · exact (nearest_natCast hn).symm.trans_le (nearest_mono (Nat.cast_pos.mpr hpos) h)

theorem natCast_lt_two_zpow {n : ℕ} (h : n < 2 ^ 53) : (n : ℚ) < 2 ^ (1024 : ℤ) := by
  calc (n : ℚ) < (2 ^ 53 : ℕ) := Nat.cast_lt.mpr h
    _ = 2 ^ (53 : ℤ) := by
        rw [Nat.cast_pow, Nat.cast_ofNat, ← zpow_natCast]
        rfl
    _ ≤ 2 ^ (1024 : ℤ) := zpow_le_zpow_right₀ one_le_two (by decide)

/-- A float is rounded at its last place, after digits were added up to it. -/
theorem exists_round_eq {m : ℕ} (hm : 0 < m) (e : ℤ) :
    ∃ (m' : ℕ) (e' : ℤ), 0 < m' ∧ (m' * 2 ^ e' : ℚ) = m * 2 ^ e ∧ e' ≤ lastPlace (m * 2 ^ e) ∧
      UnpackedFloat.round .binary64 .positive m e
        = roundWithAccuracy .binary64 .positive m' e' .exact := by
  refine ⟨m <<< (e - lastPlace (m * 2 ^ e)).toNat, e - (e - lastPlace (m * 2 ^ e)).toNat, ?_, ?_,
    by omega, ?_⟩
  · rw [Nat.shiftLeft_eq]
    exact Nat.mul_pos hm (Nat.two_pow_pos _)
  · rw [Nat.shiftLeft_eq, zpow_sub₀ two_ne_zero, zpow_natCast]
    push_cast
    field_simp
  · rw [UnpackedFloat.round, ← targetExponent_eq hm]
    rfl

/-- What is rounded is packed as it is, unless it is too great. -/
theorem magnitude_pack_round {m : ℕ} (hm : 0 < m) {e : ℤ} (he : e ≤ lastPlace (m * 2 ^ e))
    (hlt : nearest (m * 2 ^ e) < 2 ^ (1024 : ℤ)) :
    Magnitude (Float.Model.pack (roundWithAccuracy .binary64 .positive m e .exact)).unpack
      (nearest (m * 2 ^ e)) := by
  obtain ⟨m', e', hc, hvalue, hround⟩ := roundWithAccuracy_eq hm he .positive
  rw [hround, ← hvalue]
  rw [← hvalue] at hlt
  split
  · rename_i hzero
    rw [hzero, Nat.cast_zero, zero_mul]
    exact .zero .positive
  · rename_i hne
    have hgreatest : e' ≤ 971 := by
      by_contra hgreat
      have hnormal : 2 ^ 52 ≤ m' := hc.normal.resolve_right (by omega)
      refine hlt.not_ge ?_
      calc (2 : ℚ) ^ (1024 : ℤ) = (2 ^ 52 : ℕ) * 2 ^ (972 : ℤ) := by
            rw [Nat.cast_pow, Nat.cast_ofNat, ← zpow_natCast, ← zpow_add₀ two_ne_zero]
            rfl
        _ ≤ m' * 2 ^ e' :=
          mul_le_mul (Nat.cast_le.mpr hnormal) (zpow_le_zpow_right₀ one_le_two (by omega))
            (two_zpow_pos _).le (Nat.cast_nonneg _)
    rw [unpack_pack (Nat.pos_of_ne_zero hne) hc, if_pos hgreatest]
    exact .positive _ hc

theorem magnitude_toFloat {w : UInt64} (h : w.toNat < 2 ^ 53) :
    Magnitude w.toFloat.toModel.unpack w.toNat := by
  show Magnitude (Float.Model.pack (.normalize .binary64 w.toNat 0 .positive)).unpack _
  rcases Nat.eq_zero_or_pos w.toNat with hzero | hpos
  · rw [hzero, Nat.cast_zero, Nat.cast_zero]
    exact .zero .positive
  · obtain ⟨m, e, hm, hvalue, hplace, hround⟩ := exists_round_eq hpos 0
    rw [← hvalue] at hplace
    have hmagnitude := magnitude_pack_round hm hplace
    rw [hvalue, zpow_zero, mul_one, nearest_natCast h] at hmagnitude
    rw [UnpackedFloat.normalize, Int.compare_eq_gt.mpr (Int.natCast_pos.mpr hpos)]
    simp only [Int.toNat_natCast, hround]
    exact hmagnitude (natCast_lt_two_zpow h)

/-! ### Products -/

theorem mul_zpow_mul_zpow (m m' : ℕ) (e e' : ℤ) :
    (m * 2 ^ e * (m' * 2 ^ e') : ℚ) = (m * m' : ℕ) * 2 ^ (e + e') := by
  rw [zpow_add₀ two_ne_zero]
  push_cast
  ring

/-- The product of canonical floats has no fewer digits than are kept. -/
theorem Canonical.le_lastPlace {m m' : ℕ} {e e' : ℤ} (hm : 0 < m) (hm' : 0 < m')
    (hc : Canonical m e) (hc' : Canonical m' e') :
    e + e' ≤ lastPlace ((m * m' : ℕ) * 2 ^ (e + e')) := by
  have hpos : 0 < m * m' := Nat.mul_pos hm hm'
  by_cases hdigits : 2 ^ 52 ≤ m * m'
  · have hlog := (Nat.le_log2 hpos.ne').mpr hdigits
    rw [lastPlace, log_mul_zpow hpos]
    omega
  · have hleast := least_le_lastPlace ((m * m' : ℕ) * 2 ^ (e + e'))
    have he : e = -1074 :=
      hc.normal.resolve_left fun h => hdigits (h.trans (Nat.le_mul_of_pos_right m hm'))
    have he' : e' = -1074 :=
      hc'.normal.resolve_left fun h => hdigits (h.trans (Nat.le_mul_of_pos_left m' hm))
    omega

/-- The product of floats is the number nearest to the product of what they stand for. -/
theorem Magnitude.mul {u v : UnpackedFloat} {x y : ℚ} (hu : Magnitude u x) (hv : Magnitude v y)
    (hlt : nearest (x * y) < 2 ^ (1024 : ℤ)) :
    Magnitude (Float.Model.pack (.mul .binary64 u v)).unpack (nearest (x * y)) := by
  have hzero : ∀ s : Sign, Magnitude (Float.Model.pack (.zero s)).unpack (nearest 0) := by
    intro s
    rw [nearest_zero]
    cases s with
    | negative => exact .zero .negative
    | positive => exact .zero .positive
  cases hu with
  | zero s =>
    rw [zero_mul]
    cases hv with
    | zero s' => exact hzero _
    | positive hm hc => exact hzero _
  | @positive m e hm hc =>
    cases hv with
    | zero s =>
      rw [mul_zero]
      exact hzero _
    | @positive m' e' hm' hc' =>
      rw [mul_zpow_mul_zpow] at hlt ⊢
      exact magnitude_pack_round (Nat.mul_pos hm hm') (hc.le_lastPlace hm hm' hc') hlt

theorem magnitude_one : Magnitude (Float.ofBits 0x3FF0000000000000).toModel.unpack 1 := by
  have hc : Canonical (2 ^ 52) (-52) := ⟨by decide, by decide, .inl le_rfl⟩
  have h := Magnitude.positive (by decide) hc
  have hvalue : ((2 ^ 52 : ℕ) * 2 ^ (-52 : ℤ) : ℚ) = 1 := by norm_num
  rw [hvalue] at h
  exact h

/-- An integer of 53 digits is a float. -/
theorem magnitude_ofNat_of_lt {n : ℕ} (h : n < 2 ^ 53) :
    Magnitude (Float.ofNat n).toModel.unpack n := by
  -- The decimal that an integer is taken for has the power of ten `1`.
  have hn : Float.ofNat n = n.toUInt64.toFloat * Float.ofBits 0x3FF0000000000000 := by
    show Float.ofScientific n false 0 = _
    rw [Float.ofScientific, dif_pos ⟨h, by decide⟩]
    rfl
  have hw : n.toUInt64.toNat = n := Nat.mod_eq_of_lt (h.trans (by decide))
  have hfloat := magnitude_toFloat (w := n.toUInt64) (by rwa [hw])
  rw [hw] at hfloat
  have hmul := hfloat.mul magnitude_one
  rw [mul_one, nearest_natCast h] at hmul
  rw [hn]
  exact hmul (natCast_lt_two_zpow h)

/-- A greater integer is rounded with 53 digits added to it. -/
theorem unpack_ofNat_of_le {n : ℕ} (h : 2 ^ 53 ≤ n) :
    (Float.ofNat n).toModel.unpack = (Float.Model.pack
      (roundWithAccuracy .binary64 .positive (n <<< 53) (-53) .exact)).unpack := by
  have hn : n ≠ 0 := (Nat.two_pow_pos 53).trans_le h |>.ne'
  have hofNat : Float.ofNat n = .ofModel (.ofScientific n 0) := by
    show Float.ofScientific n false 0 = _
    rw [Float.ofScientific, dif_neg fun hlt => absurd hlt.1 (Nat.not_lt.mpr h)]
    rfl
  have hround : UnpackedFloat.ofScientific .binary64 n 0
      = roundWithAccuracy .binary64 .positive (n <<< 53) (-53) .exact := by
    have hexponent : (2 : ℤ) ^ Format.binary64.exponentBits = 2048 := rfl
    have hmantissa : Format.binary64.mantissaBits = 53 := rfl
    rw [UnpackedFloat.ofScientific, dif_neg hn, if_neg (by decide), if_neg (by omega),
      if_pos (by decide)]
    simp only [UnpackedFloat.mul, hmantissa, Int.toNat_zero, pow_zero, mul_one, add_zero]
    rfl
  rw [hofNat]
  show (Float.Model.pack (UnpackedFloat.ofScientific .binary64 n 0)).unpack = _
  rw [hround]

/-- Integers of 64 digits are not too great. -/
theorem nearest_natCast_lt {n : ℕ} (hpos : 0 < n) (h : n < 2 ^ 64) :
    nearest n < 2 ^ (1024 : ℤ) := by
  have hlog : n.log2 < 64 := (Nat.log2_lt hpos.ne').mpr h
  have hplace : lastPlace n ≤ 11 := by
    rw [lastPlace_natCast hpos]
    omega
  calc nearest n ≤ (2 ^ 53 : ℕ) * 2 ^ (11 : ℤ) :=
        mul_le_mul (Nat.cast_le.mpr (nearestEven_le (div_lastPlace_le n)))
          (zpow_le_zpow_right₀ one_le_two hplace) (two_zpow_pos _).le (Nat.cast_nonneg _)
    _ = 2 ^ (64 : ℤ) := by norm_num
    _ < 2 ^ (1024 : ℤ) := zpow_lt_zpow_right₀ one_lt_two (by decide)

/-- An integer becomes the nearest float. -/
theorem magnitude_ofNat {n : ℕ} (h : n < 2 ^ 64) :
    Magnitude (Float.ofNat n).toModel.unpack (nearest n) := by
  rcases Nat.lt_or_ge n (2 ^ 53) with hlt | hge
  · rw [nearest_natCast hlt]
    exact magnitude_ofNat_of_lt hlt
  · have hpos : 0 < n := (Nat.two_pow_pos 53).trans_le hge
    have hvalue : ((n <<< 53 : ℕ) * 2 ^ (-53 : ℤ) : ℚ) = n := by
      rw [Nat.shiftLeft_eq, Nat.cast_mul, mul_assoc]
      norm_num
    have hplace : (-53 : ℤ) ≤ lastPlace ((n <<< 53 : ℕ) * 2 ^ (-53 : ℤ)) := by
      rw [hvalue, lastPlace_natCast hpos]
      omega
    rw [unpack_ofNat_of_le hge]
    have hround := magnitude_pack_round (Nat.shiftLeft_pos_iff.mpr hpos) hplace
    rw [hvalue] at hround
    exact hround (nearest_natCast_lt hpos h)

/-! ### Whole parts of products -/

/-- What is left of a product as a 64-bit integer. -/
theorem Magnitude.truncated_mul {u v : UnpackedFloat} {x y : ℚ} (hu : Magnitude u x)
    (hv : Magnitude v y) :
    truncated (.mul .binary64 u v) = min ⌊nearest (x * y)⌋₊ (2 ^ 64 - 1) := by
  have hzero : ∀ s : Sign, truncated (.zero s) = min ⌊nearest 0⌋₊ (2 ^ 64 - 1) := by
    intro s
    rw [truncated_zero, nearest_zero, Nat.floor_zero, Nat.zero_min]
  cases hu with
  | zero s =>
    rw [zero_mul]
    cases hv with
    | zero s' => exact hzero _
    | positive hm hc => exact hzero _
  | @positive m e hm hc =>
    cases hv with
    | zero s =>
      rw [mul_zero]
      exact hzero _
    | @positive m' e' hm' hc' =>
      rw [mul_zpow_mul_zpow]
      exact truncated_round_positive (Nat.mul_pos hm hm') (hc.le_lastPlace hm hm' hc')

/-- Greater floats have greater products with one that is not negative, once the fraction is
dropped. -/
theorem Magnitude.truncated_mul_mono {u v w : UnpackedFloat} {x y z : ℚ} (hu : Magnitude u x)
    (hv : Magnitude v y) (hw : Magnitude w z) (h : x ≤ y) :
    truncated (.mul .binary64 u w) ≤ truncated (.mul .binary64 v w) := by
  rw [hu.truncated_mul hw, hv.truncated_mul hw]
  have hle : x * z ≤ y * z := mul_le_mul_of_nonneg_right h hw.nonneg
  have hnearest : nearest (x * z) ≤ nearest (y * z) := by
    rcases (mul_nonneg hu.nonneg hw.nonneg).eq_or_lt with hzero | hpos
    · rw [← hzero, nearest_zero]
      exact nearest_nonneg _
    · exact nearest_mono hpos hle
  exact min_le_min_right _ (Nat.floor_mono hnearest)

/-- Greater floats that are not negative have greater products with any float, once the
fraction is dropped and what is negative is taken for zero. -/
theorem Magnitude.truncated_mul_le {u v w : UnpackedFloat} {x y : ℚ} (hu : Magnitude u x)
    (hv : Magnitude v y) (h : x ≤ y) {b : BitVec Format.binary64.numBits}
    (hb : UnpackedFloat.unpack .binary64 b = w) :
    truncated (.mul .binary64 u w) ≤ truncated (.mul .binary64 v w) := by
  cases hu with
  | zero s =>
    have hzero : truncated (.mul .binary64 (.zero s) w) = 0 := by
      cases w with
      | notANumber => exact truncated_notANumber
      | infinity _ => exact truncated_notANumber
      | zero _ => exact truncated_zero _
      | finite _ _ _ _ => exact truncated_zero _
    rw [hzero]
    exact Nat.zero_le _
  | positive hm hc =>
    cases hv with
    | zero s => exact absurd h (mul_pos (Nat.cast_pos.mpr hm) (two_zpow_pos _)).not_ge
    | positive hm' hc' =>
      -- The product depends on what is multiplied by it only if this is finite.
      cases w with
      | notANumber => exact le_rfl
      | infinity _ => exact le_rfl
      | zero _ => exact le_rfl
      | finite s k l hk =>
        have hck := canonical_of_unpack hb
        cases s with
        | negative =>
          have hzero :=
            truncated_round_negative (Nat.mul_pos hm hk) (hc.le_lastPlace hm hk hck)
          exact hzero.trans_le (Nat.zero_le _)
        | positive =>
          exact (Magnitude.positive hm hc).truncated_mul_mono (.positive hm' hc')
            (.positive hk hck) h

end QuantileSketch.Rounding
