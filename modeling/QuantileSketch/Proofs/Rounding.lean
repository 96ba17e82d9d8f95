/-
Floating-point numbers as rational numbers.

A finite float is a mantissa of at most 53 binary digits times a power of two, and an
operation rounds its exact result to the nearest such number.  Here this is said in terms
of rational numbers:

* `nearest` — the nearest number of 53 digits, which grows with the number
  (`nearest_mono`);
* `Extends` — what the residual bits say about a number whose last digits are dropped, kept
  by each shift (`Extends.shiftRightOne`) and so by all of them (`Extends.shiftRight`);
* `roundWithAccuracy_eq` — rounding a float finds the nearest number;
* `unpack_pack` — packing keeps what has been rounded;
* `truncated` — what is left of a float as a 64-bit integer;
* `Magnitude` — the floats that are not negative, which are compared as rational numbers
  (`Magnitude.compare_eq`).

Design notes: a number is rounded at a place that depends on its size, so two numbers are
compared through a power of two between them if their places differ.  The lemmas about packed
floats, and the equations of their operations, come with the library as a whole and with no
smaller part of it.
-/
import Mathlib

open Float.Model Float.Model.UnpackedFloat

namespace QuantileSketch.Rounding

/-! ### The nearest integer -/

/-- The nearest integer, and of two the even one. -/
def nearestEven (x : ℚ) : ℕ :=
  if x < ⌊x⌋₊ + 1 / 2 then ⌊x⌋₊
  else if x = ⌊x⌋₊ + 1 / 2 then ⌊x⌋₊ + ⌊x⌋₊ % 2
  else ⌊x⌋₊ + 1

theorem floor_le_nearestEven (x : ℚ) : ⌊x⌋₊ ≤ nearestEven x := by
  rw [nearestEven]
  split
  · exact Nat.le_refl _
  · split <;> omega

theorem nearestEven_le_floor (x : ℚ) : nearestEven x ≤ ⌊x⌋₊ + 1 := by
  rw [nearestEven]
  split
  · exact Nat.le_succ _
  · split <;> omega

theorem nearestEven_mono {x y : ℚ} (h : x ≤ y) : nearestEven x ≤ nearestEven y := by
  have hfloor : ⌊x⌋₊ ≤ ⌊y⌋₊ := Nat.floor_mono h
  rcases Nat.lt_or_eq_of_le hfloor with hlt | heq
  · exact (nearestEven_le_floor x).trans (Nat.le_trans hlt (floor_le_nearestEven y))
  · -- Both lie between the same integers, and `y` is no nearer to the lower one.
    rw [nearestEven, nearestEven, heq]
    grind

theorem nearestEven_natCast (n : ℕ) : nearestEven n = n := by
  rw [nearestEven, Nat.floor_natCast, if_pos (by linarith)]

theorem nearestEven_le {x : ℚ} {n : ℕ} (h : x ≤ n) : nearestEven x ≤ n :=
  (nearestEven_mono h).trans_eq (nearestEven_natCast n)

theorem le_nearestEven {x : ℚ} {n : ℕ} (h : n ≤ x) : n ≤ nearestEven x :=
  (nearestEven_natCast n).symm.trans_le (nearestEven_mono h)

/-! ### The nearest number with 53 digits -/

/-- The exponent of the last of 53 binary digits, which is not below that of the least
float. -/
def lastPlace (x : ℚ) : ℤ := max (Int.log 2 x - 52) (-1074)

/-- The nearest number with 53 binary digits. -/
def nearest (x : ℚ) : ℚ := nearestEven (x / 2 ^ lastPlace x) * 2 ^ lastPlace x

theorem two_zpow_pos (e : ℤ) : (0 : ℚ) < 2 ^ e := zpow_pos two_pos e

theorem lastPlace_mono {x y : ℚ} (hx : 0 < x) (h : x ≤ y) : lastPlace x ≤ lastPlace y :=
  max_le_max (sub_le_sub_right (Int.log_mono_right hx h) _) le_rfl

theorem least_le_lastPlace (x : ℚ) : -1074 ≤ lastPlace x := le_max_right _ _

/-- There are no more than 53 digits. -/
theorem div_lastPlace_le (x : ℚ) : x / 2 ^ lastPlace x ≤ (2 ^ 53 : ℕ) := by
  have hlog : x < (2 : ℚ) ^ (Int.log 2 x + 1) := Int.lt_zpow_succ_log_self one_lt_two x
  have hle : Int.log 2 x + 1 ≤ 53 + lastPlace x := by
    have : Int.log 2 x - 52 ≤ lastPlace x := le_max_left _ _
    omega
  rw [div_le_iff₀ (two_zpow_pos _), Nat.cast_pow, ← zpow_natCast, Nat.cast_ofNat,
    ← zpow_add₀ two_ne_zero]
  exact hlog.le.trans (zpow_le_zpow_right₀ one_le_two hle)

/-- Unless the last place is that of the least float, there are no fewer. -/
theorem le_div_lastPlace {x : ℚ} (hx : 0 < x) (h : lastPlace x ≠ -1074) :
    (2 ^ 52 : ℕ) ≤ x / 2 ^ lastPlace x := by
  have hlog : (2 : ℚ) ^ Int.log 2 x ≤ x := Int.zpow_log_le_self one_lt_two hx
  have heq : Int.log 2 x = 52 + lastPlace x := by
    rw [lastPlace] at h ⊢
    omega
  rw [heq] at hlog
  rw [le_div_iff₀ (two_zpow_pos _), Nat.cast_pow, ← zpow_natCast, Nat.cast_ofNat,
    ← zpow_add₀ two_ne_zero]
  exact hlog

/-- Greater numbers are rounded to greater ones. -/
theorem nearest_mono {x y : ℚ} (hx : 0 < x) (h : x ≤ y) : nearest x ≤ nearest y := by
  have hy : 0 < y := hx.trans_le h
  rcases (lastPlace_mono hx h).lt_or_eq with hlt | heq
  · -- A power of two lies between what `x` and `y` are rounded to.
    have hplace : lastPlace y ≠ -1074 := by
      have := least_le_lastPlace x
      omega
    have hupper := nearestEven_le (div_lastPlace_le x)
    have hlower := le_nearestEven (le_div_lastPlace hy hplace)
    calc nearest x ≤ (2 ^ 53 : ℕ) * 2 ^ lastPlace x :=
          mul_le_mul_of_nonneg_right (Nat.cast_le.mpr hupper) (two_zpow_pos _).le
      _ = (2 ^ 52 : ℕ) * 2 ^ (lastPlace x + 1) := by
          rw [zpow_add_one₀ two_ne_zero]
          push_cast
          ring
      _ ≤ (2 ^ 52 : ℕ) * 2 ^ lastPlace y :=
          mul_le_mul_of_nonneg_left (zpow_le_zpow_right₀ one_le_two hlt) (Nat.cast_nonneg _)
      _ ≤ nearest y := mul_le_mul_of_nonneg_right (Nat.cast_le.mpr hlower) (two_zpow_pos _).le
  · rw [nearest, nearest, heq]
    refine mul_le_mul_of_nonneg_right (Nat.cast_le.mpr (nearestEven_mono ?_)) (two_zpow_pos _).le
    exact div_le_div_of_nonneg_right h (two_zpow_pos _).le

/-! ### How floats are rounded -/

/-- A mantissa with its residual bits tells where a number lies between two integers. -/
structure Extends (em : ExtendedMantissa) (x : ℚ) : Prop where
  lower : (em.mantissa : ℚ) ≤ x
  upper : x < em.mantissa + 1
  roundBit : em.roundBit = true ↔ em.mantissa + 1 / 2 ≤ x
  stickyBit : em.stickyBit = true ↔ x ≠ em.mantissa ∧ x ≠ em.mantissa + 1 / 2

theorem extends_natCast (m : ℕ) : Extends ⟨m, false, false⟩ m where
  lower := le_rfl
  upper := lt_add_one _
  roundBit := by simp
  stickyBit := by simp

theorem Extends.floor_eq {em : ExtendedMantissa} {x : ℚ} (h : Extends em x) :
    ⌊x⌋₊ = em.mantissa :=
  (Nat.floor_eq_iff (h.lower.trans' (Nat.cast_nonneg _))).mpr ⟨h.lower, h.upper⟩

theorem Extends.shiftRightOne {em : ExtendedMantissa} {x : ℚ} (h : Extends em x) :
    Extends em.shiftRightOne (x / 2) := by
  obtain ⟨m, r, s⟩ := em
  obtain ⟨hlower, hupper, hround, hsticky⟩ := h
  simp only at hlower hupper hround hsticky
  have hdiv : (m : ℚ) = 2 * (m / 2 : ℕ) + (m % 2 : ℕ) := by
    exact_mod_cast (Nat.div_add_mod m 2).symm
  -- The digit that is dropped is the next round bit, and what was below it is not lost.
  rcases Nat.mod_two_eq_zero_or_one m with hmod | hmod
  all_goals
    rw [hmod] at hdiv
    refine ⟨?_, ?_, ?_, ?_⟩ <;> simp only [ExtendedMantissa.shiftRightOne, hmod]
    · linarith
    · linarith
    · grind
    · grind

theorem Extends.shiftRight {em : ExtendedMantissa} {x : ℚ} (h : Extends em x) (n : ℕ) :
    Extends (em >>> n) (x / 2 ^ n) := by
  induction n with
  | zero =>
    rw [pow_zero, div_one]
    exact h
  | succ n ih =>
    rw [pow_succ, ← div_div]
    exact ih.shiftRightOne

theorem Extends.roundedMantissa {em : ExtendedMantissa} {x : ℚ} (h : Extends em x) :
    em.roundedMantissa = nearestEven x := by
  have hfloor := h.floor_eq
  obtain ⟨m, r, s⟩ := em
  obtain ⟨hlower, hupper, hround, hsticky⟩ := h
  simp only at hlower hupper hround hsticky hfloor
  rw [nearestEven, hfloor, ExtendedMantissa.roundedMantissa]
  -- The two bits tell whether the number is below, at or above the middle.
  cases r <;> cases s <;>
    simp only [ExtendedMantissa.accuracy, Accuracy.roundToNearestEven] <;> grind

/-! ### Canonical floats -/

/-- Mantissa and exponent are those of a float, but that the exponent may be too great. -/
structure Canonical (m : ℕ) (e : ℤ) : Prop where
  lt : m < 2 ^ 53
  least : -1074 ≤ e
  normal : 2 ^ 52 ≤ m ∨ e = -1074

theorem log_mul_zpow {m : ℕ} (hm : 0 < m) (e : ℤ) : Int.log 2 (m * 2 ^ e : ℚ) = m.log2 + e := by
  have hpos : (0 : ℚ) < m * 2 ^ e := mul_pos (Nat.cast_pos.mpr hm) (two_zpow_pos e)
  have hlower : (2 ^ m.log2 : ℕ) ≤ (m : ℚ) := Nat.cast_le.mpr (Nat.log2_self_le hm.ne')
  have hupper : (m : ℚ) < (2 ^ (m.log2 + 1) : ℕ) := Nat.cast_lt.mpr Nat.lt_log2_self
  refine le_antisymm (Int.lt_add_one_iff.mp ?_) ?_
  · refine (Int.lt_zpow_iff_log_lt one_lt_two hpos).mp ?_
    calc (m * 2 ^ e : ℚ) < (2 ^ (m.log2 + 1) : ℕ) * 2 ^ e :=
          mul_lt_mul_of_pos_right hupper (two_zpow_pos e)
      _ = ((2 : ℕ) : ℚ) ^ (m.log2 + e + 1) := by
          rw [Nat.cast_pow, Nat.cast_ofNat, ← zpow_natCast, ← zpow_add₀ two_ne_zero]
          push_cast
          ring_nf
  · refine (Int.zpow_le_iff_le_log one_lt_two hpos).mp ?_
    calc ((2 : ℕ) : ℚ) ^ (m.log2 + e) = (2 ^ m.log2 : ℕ) * 2 ^ e := by
          rw [Nat.cast_pow, Nat.cast_ofNat, zpow_add₀ two_ne_zero, zpow_natCast]
      _ ≤ m * 2 ^ e := mul_le_mul_of_nonneg_right hlower (two_zpow_pos e).le

theorem targetExponent_eq {m : ℕ} (hm : 0 < m) (e : ℤ) :
    Format.binary64.targetExponent (totalExponent m e) = lastPlace (m * 2 ^ e) := by
  have hmin : Format.binary64.minExponent = -1074 := rfl
  have hbits : (Format.binary64.mantissaBits : ℤ) = 53 := rfl
  rw [Format.targetExponent, totalExponent, lastPlace, log_mul_zpow hm, hmin, hbits]
  omega

theorem shiftToTargetExponent_eq {m n : ℕ} {e : ℤ}
    (h : (Format.binary64.targetExponent (totalExponent m e) - e).toNat = n) :
    shiftToTargetExponent .binary64 m e .exact
      = ((⟨m, false, false⟩ : ExtendedMantissa) >>> n, e + n) := by
  rw [shiftToTargetExponent]
  simp only [shiftToExponent, h]
  rfl

/-- A mantissa that has at most 53 digits is left as it is, and the next power of two is
written with one digit less. -/
theorem exists_canonical {r : ℕ} {t : ℤ} (hr : r ≤ 2 ^ 53) (ht : -1074 ≤ t)
    (hnormal : 2 ^ 52 ≤ r ∨ t = -1074) :
    ∃ m' e', Canonical m' e' ∧ (m' * 2 ^ e' : ℚ) = r * 2 ^ t
      ∧ ∃ em, shiftToTargetExponent .binary64 r t .exact = (em, e') ∧ em.mantissa = m' := by
  have htarget : ∀ l, Format.binary64.targetExponent (l + 1 + t) = max (l - 52 + t) (-1074) := by
    intro l
    have hmin : Format.binary64.minExponent = -1074 := rfl
    have hbits : (Format.binary64.mantissaBits : ℤ) = 53 := rfl
    rw [Format.targetExponent, hmin, hbits]
    omega
  rcases Nat.lt_or_eq_of_le hr with hlt | rfl
  · have hlog : r.log2 ≤ 52 := by
      rcases Nat.eq_zero_or_pos r with rfl | hpos
      · decide
      · exact Nat.lt_succ_iff.mp ((Nat.log2_lt hpos.ne').mpr hlt)
    have hzero : (Format.binary64.targetExponent (totalExponent r t) - t).toNat = 0 := by
      rw [totalExponent, htarget]
      omega
    have hshift := shiftToTargetExponent_eq hzero
    rw [Nat.cast_zero, add_zero] at hshift
    exact ⟨r, t, ⟨hlt, ht, hnormal⟩, rfl, _, hshift, rfl⟩
  · have hone : (Format.binary64.targetExponent (totalExponent (2 ^ 53) t) - t).toNat = 1 := by
      have hlog : (2 ^ 53 : ℕ).log2 = 53 := Nat.log2_two_pow
      rw [totalExponent, htarget, hlog]
      omega
    refine ⟨2 ^ 52, t + 1, ⟨by decide, by omega, .inl le_rfl⟩, ?_, _,
      shiftToTargetExponent_eq hone, rfl⟩
    rw [zpow_add_one₀ two_ne_zero]
    push_cast
    ring

/-- Rounding finds the nearest number, if there are digits enough. -/
theorem roundWithAccuracy_eq {m : ℕ} (hm : 0 < m) {e : ℤ} (he : e ≤ lastPlace (m * 2 ^ e))
    (s : Sign) :
    ∃ m' e', Canonical m' e' ∧ (m' * 2 ^ e' : ℚ) = nearest (m * 2 ^ e) ∧
      roundWithAccuracy .binary64 s m e .exact
        = if h : m' = 0 then .zero s else .finite s m' e' (Nat.pos_of_ne_zero h) := by
  have hx : (0 : ℚ) < m * 2 ^ e := mul_pos (Nat.cast_pos.mpr hm) (two_zpow_pos e)
  have hupper := nearestEven_le (div_lastPlace_le (m * 2 ^ e))
  have hleast := least_le_lastPlace (m * 2 ^ e)
  have hnormal : 2 ^ 52 ≤ nearestEven (m * 2 ^ e / 2 ^ lastPlace (m * 2 ^ e))
      ∨ lastPlace (m * 2 ^ e) = -1074 := by
    by_cases h : lastPlace (m * 2 ^ e) = -1074
    · exact .inr h
    · exact .inl (le_nearestEven (le_div_lastPlace hx h))
  obtain ⟨m', e', hcanonical, hvalue, em, hsecond, rfl⟩ := exists_canonical hupper hleast hnormal
  refine ⟨em.mantissa, e', hcanonical, hvalue, ?_⟩
  -- The first shift drops the digits after the last place.
  obtain ⟨n, hn⟩ := Int.le.dest he
  have hshift : (Format.binary64.targetExponent (totalExponent m e) - e).toNat = n := by
    rw [targetExponent_eq hm, ← hn, add_sub_cancel_left, Int.toNat_natCast]
  have hdiv : (m * 2 ^ e / 2 ^ lastPlace (m * 2 ^ e) : ℚ) = m / 2 ^ n := by
    rw [← hn, zpow_add₀ two_ne_zero, zpow_natCast, mul_comm,
      mul_div_mul_left _ _ (two_zpow_pos e).ne']
  rw [hdiv, ← ((extends_natCast m).shiftRight n).roundedMantissa, ← hn] at hsecond
  rw [roundWithAccuracy, shiftToTargetExponent_eq hshift]
  simp only [hsecond]

/-! ### Packing -/

theorem toNat_one_append (m : BitVec 52) : (1#1 ++ m).toNat = 2 ^ 52 + m.toNat := by
  rw [BitVec.toNat_append, ← Nat.shiftLeft_add_eq_or_of_lt m.isLt]
  rfl

/-- What is unpacked is canonical. -/
theorem canonical_of_unpack {b : BitVec Format.binary64.numBits} {s : Sign} {m : ℕ} {e : ℤ}
    {h : 0 < m} (hb : UnpackedFloat.unpack .binary64 b = .finite s m e h) : Canonical m e := by
  have hm : (unpackMantissa b).toNat < 2 ^ 52 := (unpackMantissa b).isLt
  have hbias : ((Format.binary64.exponentBias : ℕ) : ℤ) = 1023 := rfl
  have hbits : ((Format.binary64.mantissaBitsWithoutImplicit : ℕ) : ℤ) = 52 := rfl
  rw [UnpackedFloat.unpack] at hb
  simp only [hbias, hbits] at hb
  split at hb
  · split at hb <;> cases hb
  · split at hb
    · rename_i hzero
      split at hb
      · cases hb
      · obtain ⟨-, rfl, rfl⟩ := UnpackedFloat.finite.inj hb
        rw [hzero]
        exact ⟨by omega, by decide, .inr (by decide)⟩
    · rename_i hne
      obtain ⟨-, rfl, rfl⟩ := UnpackedFloat.finite.inj hb
      have hpos : (unpackExponent b).toNat ≠ 0 := fun hzero =>
        hne (BitVec.eq_of_toNat_eq (by simpa using hzero))
      have hone := toNat_one_append (unpackMantissa b)
      exact ⟨by omega, by omega, .inl (by omega)⟩

theorem finite_congr {s : Sign} {m m' : ℕ} {e e' : ℤ} {h : 0 < m} {h' : 0 < m'} (hm : m = m')
    (he : e = e') : UnpackedFloat.finite s m e h = .finite s m' e' h' := by
  subst hm he
  rfl

theorem unpack_normal {s : Sign} {m : ℕ} {e : ℤ} (h : 0 < m) (hlower : 2 ^ 52 ≤ m)
    (hupper : m < 2 ^ 53) (hleast : -1074 ≤ e) (hgreatest : e ≤ 971) :
    UnpackedFloat.unpack .binary64
        (packComponents .binary64 s (BitVec.ofNat _ (e + 1075).toNat) (BitVec.ofNat _ m))
      = .finite s m e h := by
  have hbias : ((Format.binary64.exponentBias : ℕ) : ℤ) = 1023 := rfl
  have hexponent : (BitVec.ofNat 11 (e + 1075).toNat).toNat = (e + 1075).toNat := by
    rw [BitVec.toNat_ofNat]
    exact Nat.mod_eq_of_lt (by omega)
  have hmantissa : (BitVec.ofNat 52 m).toNat = m - 2 ^ 52 := by
    rw [BitVec.toNat_ofNat]
    omega
  have hfinite : BitVec.ofNat 11 (e + 1075).toNat ≠ -1#11 := by
    intro heq
    rw [heq] at hexponent
    have : (2047 : ℕ) = (e + 1075).toNat := hexponent
    omega
  have hnormal : BitVec.ofNat 11 (e + 1075).toNat ≠ 0#11 := by
    intro heq
    rw [heq] at hexponent
    have : (0 : ℕ) = (e + 1075).toNat := hexponent
    omega
  rw [UnpackedFloat.unpack]
  simp only [unpackMantissa_packComponents, unpackExponent_packComponents,
    unpackSign_packComponents, Sign.ofBitVec_toBitVec]
  rw [if_neg hfinite, if_neg hnormal]
  refine finite_congr ?_ ?_
  · rw [toNat_one_append, hmantissa]
    omega
  · rw [hexponent, hbias]
    omega

theorem unpack_subnormal {s : Sign} {m : ℕ} (h : 0 < m) (hupper : m < 2 ^ 52) :
    UnpackedFloat.unpack .binary64 (packComponents .binary64 s 0#_ (BitVec.ofNat _ m))
      = .finite s m (-1074) h := by
  have hmantissa : (BitVec.ofNat 52 m).toNat = m := by
    rw [BitVec.toNat_ofNat]
    exact Nat.mod_eq_of_lt hupper
  have hne : BitVec.ofNat 52 m ≠ 0#52 := by
    intro heq
    rw [heq] at hmantissa
    have : 0 = m := hmantissa
    omega
  rw [UnpackedFloat.unpack]
  simp only [unpackMantissa_packComponents, unpackExponent_packComponents,
    unpackSign_packComponents, Sign.ofBitVec_toBitVec]
  rw [if_neg (by decide), if_pos trivial, dif_neg hne]
  exact finite_congr hmantissa rfl

/-- Packing leaves a canonical float as it is, unless it is too great. -/
theorem unpack_pack {s : Sign} {m : ℕ} {e : ℤ} (h : 0 < m) (hc : Canonical m e) :
    (Float.Model.pack (.finite s m e h)).unpack
      = if e ≤ 971 then .finite s m e h else .infinity s := by
  have hlt := hc.lt
  have hleast := hc.least
  have hbits : Format.binary64.mantissaBits = 53 := rfl
  have hexponent : (e + Format.binary64.exponentBias
      + Format.binary64.mantissaBitsWithoutImplicit).toNat = (e + 1075).toNat := by
    have hbias : ((Format.binary64.exponentBias : ℕ) : ℤ) = 1023 := rfl
    have hwidth : ((Format.binary64.mantissaBitsWithoutImplicit : ℕ) : ℤ) = 52 := rfl
    rw [hbias, hwidth]
    omega
  show UnpackedFloat.unpack .binary64 (UnpackedFloat.pack .binary64 (.finite s m e h)) = _
  rw [UnpackedFloat.pack]
  simp only [hexponent, hbits]
  by_cases he : e ≤ 971
  · rw [if_pos he, if_neg (by omega)]
    by_cases hm : 2 ^ 52 ≤ m
    · have hlower := (Nat.le_log2 h.ne').mpr hm
      have hupper := (Nat.log2_lt h.ne').mpr hlt
      rw [if_pos (by omega), unpack_normal h hm hlt hleast he]
    · have hupper := (Nat.log2_lt h.ne').mpr (Nat.lt_of_not_le hm)
      obtain rfl : e = -1074 := hc.normal.resolve_left hm
      rw [if_neg (by omega), unpack_subnormal h (Nat.lt_of_not_le hm)]
  · rw [if_neg he, if_pos (by omega)]
    cases s <;> rfl

/-! ### Dropping the fraction -/

theorem roundToInt_eq (s : Sign) (m : ℕ) (e : ℤ) :
    roundToInt s m e = s.apply ⌊(m * 2 ^ e : ℚ)⌋₊ := by
  have hvalue : ((m <<< e.toNat : ℕ) / 2 ^ (-e).toNat : ℚ) = m * 2 ^ e := by
    obtain ⟨n, rfl | rfl⟩ := e.eq_nat_or_neg
    · simp [Nat.shiftLeft_eq]
    · simp [div_eq_mul_inv]
  have hshift : (0 - (e - e.toNat)).toNat = (-e).toNat := by omega
  rw [← hvalue, ((extends_natCast _).shiftRight _).floor_eq, roundToInt]
  simp only [decreaseExponent, sub_zero, shiftToExponent, hshift]
  rfl

/-- The integer that is left of a packed float, as it fits into 64 bits. -/
def truncated (u : UnpackedFloat) : ℕ := (Float.Model.pack u).unpack.toUInt64.toNat

theorem truncated_zero (s : Sign) : truncated (.zero s) = 0 := by
  cases s <;> rfl

theorem truncated_notANumber : truncated .notANumber = 0 := rfl

theorem toNat_ofNatClamp (n : ℕ) : (UInt64.ofNatClamp n).toNat = min n (2 ^ 64 - 1) := by
  have hsize : UInt64.size = 2 ^ 64 := rfl
  rw [UInt64.ofNatClamp]
  split <;> rw [UInt64.toNat_ofNatLT] <;> omega

theorem truncated_negative {m : ℕ} {e : ℤ} (h : 0 < m) (hc : Canonical m e) :
    truncated (.finite .negative m e h) = 0 := by
  rw [truncated, unpack_pack h hc]
  split
  · have hneg : ∀ n : ℕ, (Sign.negative.apply n).toNat = 0 := fun n => Int.toNat_neg_natCast n
    rw [UnpackedFloat.toUInt64, toInt, roundToInt_eq, hneg]
    rfl
  · rfl

theorem truncated_positive {m : ℕ} {e : ℤ} (h : 0 < m) (hc : Canonical m e) :
    truncated (.finite .positive m e h) = min ⌊(m * 2 ^ e : ℚ)⌋₊ (2 ^ 64 - 1) := by
  rw [truncated, unpack_pack h hc]
  split
  · have hpos : ∀ n : ℕ, (Sign.positive.apply n).toNat = n := fun n => Int.toNat_natCast n
    rw [UnpackedFloat.toUInt64, toInt, roundToInt_eq, hpos, toNat_ofNatClamp]
  · rename_i he
    have hm : 2 ^ 52 ≤ m := by
      have := hc.normal
      omega
    have hfloor : 2 ^ 64 - 1 ≤ ⌊(m * 2 ^ e : ℚ)⌋₊ := by
      refine Nat.le_floor ?_
      calc ((2 ^ 64 - 1 : ℕ) : ℚ) ≤ (2 ^ 52 : ℕ) * 2 ^ (12 : ℤ) := by norm_num
        _ ≤ m * 2 ^ e :=
          mul_le_mul (Nat.cast_le.mpr hm) (zpow_le_zpow_right₀ one_le_two (by omega))
            (two_zpow_pos _).le (Nat.cast_nonneg _)
    rw [Nat.min_eq_right hfloor]
    rfl

theorem truncated_round_positive {m : ℕ} (hm : 0 < m) {e : ℤ}
    (he : e ≤ lastPlace (m * 2 ^ e)) :
    truncated (roundWithAccuracy .binary64 .positive m e .exact)
      = min ⌊nearest (m * 2 ^ e)⌋₊ (2 ^ 64 - 1) := by
  obtain ⟨m', e', hc, hvalue, hround⟩ := roundWithAccuracy_eq hm he .positive
  rw [hround, ← hvalue]
  split
  · rename_i hzero
    rw [truncated_zero, hzero, Nat.cast_zero, zero_mul, Nat.floor_zero, Nat.zero_min]
  · rename_i hne
    exact truncated_positive (Nat.pos_of_ne_zero hne) hc

theorem truncated_round_negative {m : ℕ} (hm : 0 < m) {e : ℤ}
    (he : e ≤ lastPlace (m * 2 ^ e)) :
    truncated (roundWithAccuracy .binary64 .negative m e .exact) = 0 := by
  obtain ⟨m', e', hc, -, hround⟩ := roundWithAccuracy_eq hm he .negative
  rw [hround]
  split
  · exact truncated_zero _
  · rename_i hne
    exact truncated_negative (Nat.pos_of_ne_zero hne) hc

/-! ### Floats that are not negative -/

/-- The float is neither negative nor infinite, and stands for the rational number. -/
inductive Magnitude : UnpackedFloat → ℚ → Prop
  | zero (s : Sign) : Magnitude (.zero s) 0
  | positive {m : ℕ} {e : ℤ} (h : 0 < m) (hc : Canonical m e) :
    Magnitude (.finite .positive m e h) (m * 2 ^ e)

theorem Magnitude.nonneg {u : UnpackedFloat} {x : ℚ} (h : Magnitude u x) : 0 ≤ x := by
  cases h with
  | zero s => exact le_rfl
  | positive h hc => exact mul_nonneg (Nat.cast_nonneg _) (two_zpow_pos _).le

theorem mul_zpow_lt {m m' : ℕ} {e e' : ℤ} (hc : Canonical m e) (hc' : Canonical m' e')
    (h : e < e') : (m * 2 ^ e : ℚ) < m' * 2 ^ e' := by
  have hnormal : 2 ^ 52 ≤ m' := by
    have := hc.least
    have := hc'.normal
    omega
  calc (m * 2 ^ e : ℚ) < (2 ^ 53 : ℕ) * 2 ^ e :=
        mul_lt_mul_of_pos_right (Nat.cast_lt.mpr hc.lt) (two_zpow_pos e)
    _ = (2 ^ 52 : ℕ) * 2 ^ (e + 1) := by
        rw [zpow_add_one₀ two_ne_zero]
        push_cast
        ring
    _ ≤ m' * 2 ^ e' :=
        mul_le_mul (Nat.cast_le.mpr hnormal) (zpow_le_zpow_right₀ one_le_two h)
          (two_zpow_pos _).le (Nat.cast_nonneg _)

/-- Comparing exponents before mantissas agrees with an order in which the exponents decide and
the mantissas do for one exponent. -/
theorem compare_then_eq {α : Type} [LinearOrder α] {m m' : ℕ} {e e' : ℤ} {x y : α}
    (hlt : e < e' ∨ e = e' ∧ m < m' → x < y) (heq : e = e' ∧ m = m' → x = y)
    (hgt : e' < e ∨ e' = e ∧ m' < m → y < x) :
    (compare e e').then (compare m m') = compare x y := by
  rcases lt_trichotomy e e' with h | rfl | h
  · rw [compare_lt_iff_lt.mpr h, compare_lt_iff_lt.mpr (hlt (.inl h))]
    rfl
  · rw [compare_eq_iff_eq.mpr rfl]
    show compare m m' = _
    rcases lt_trichotomy m m' with h | h | h
    · rw [compare_lt_iff_lt.mpr h, compare_lt_iff_lt.mpr (hlt (.inr ⟨rfl, h⟩))]
    · rw [compare_eq_iff_eq.mpr h, compare_eq_iff_eq.mpr (heq ⟨rfl, h⟩)]
    · rw [compare_gt_iff_gt.mpr h, compare_gt_iff_gt.mpr (hgt (.inr ⟨rfl, h⟩))]
  · rw [compare_gt_iff_gt.mpr h, compare_gt_iff_gt.mpr (hgt (.inl h))]
    rfl

theorem compare_mul_zpow {m m' : ℕ} {e e' : ℤ} (hc : Canonical m e) (hc' : Canonical m' e') :
    (compare e e').then (compare m m') = compare (m * 2 ^ e : ℚ) (m' * 2 ^ e') := by
  refine compare_then_eq ?_ ?_ ?_
  · rintro (h | ⟨rfl, h⟩)
    · exact mul_zpow_lt hc hc' h
    · exact mul_lt_mul_of_pos_right (Nat.cast_lt.mpr h) (two_zpow_pos e)
  · rintro ⟨rfl, rfl⟩
    rfl
  · rintro (h | ⟨rfl, h⟩)
    · exact mul_zpow_lt hc' hc h
    · exact mul_lt_mul_of_pos_right (Nat.cast_lt.mpr h) (two_zpow_pos e')

/-- Floats that are not negative are compared by the numbers they stand for. -/
theorem Magnitude.compare_eq {u v : UnpackedFloat} {x y : ℚ} (hu : Magnitude u x)
    (hv : Magnitude v y) : u.compare v = some (compare x y) := by
  have hpos : ∀ {m : ℕ} (e : ℤ), 0 < m → (0 : ℚ) < m * 2 ^ e := fun e h =>
    mul_pos (Nat.cast_pos.mpr h) (two_zpow_pos e)
  cases hu with
  | zero s =>
    cases hv with
    | zero s' => rfl
    | positive h hc =>
      rw [compare_lt_iff_lt.mpr (hpos _ h)]
      rfl
  | positive h hc =>
    cases hv with
    | zero s =>
      rw [compare_gt_iff_gt.mpr (hpos _ h)]
      rfl
    | positive h' hc' =>
      rw [← compare_mul_zpow hc hc']
      rfl

end QuantileSketch.Rounding
