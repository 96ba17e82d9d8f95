/-
The order of floats.

Floats that are numbers are in order one way or the other, `not_lt_iff_le`.  The order of
positive finite floats is that of their bit patterns, read as integers, and what lies
between two of them is another one:

* `unpack_positive`, `toNat_eq_of_unpack` — the bit patterns of positive finite floats, and
  the digits they hold;
* `compare_place` — such floats are compared by their places;
* `place_between_iff` — a float is between two of them if its place is;
* `Magnitude.le_trans` — a float that is not negative may be compared with any float.

Design notes: a mantissa of a greater exponent is at least `2 ^ 52`, unless the exponent is
the least one.  So the implicit digit of a normal float is just what carries its exponent
over to the next place, and the pattern is one linear expression in both.
-/
import QuantileSketch.Accuracy
import QuantileSketch.Proofs.Ranks

open Float.Model Float.Model.UnpackedFloat
open QuantileSketch.Rounding

namespace QuantileSketch

/-! ### Floats that are numbers -/

theorem compare_swap (u v : UnpackedFloat) : v.compare u = (u.compare v).map Ordering.swap := by
  have hfinite : ∀ (m m' : ℕ) (e e' : ℤ),
      (compare e' e).then (compare m' m) = ((compare e e').then (compare m m')).swap := by
    intro m m' e e'
    rw [Ordering.swap_then, Int.compare_swap, Nat.compare_swap]
  -- Signs and kinds decide, but for two finite floats of one sign.
  rcases u with s | _ | s | ⟨s, m, e, hm⟩ <;> rcases v with s' | _ | s' | ⟨s', m', e', hm'⟩ <;>
    (try cases s) <;> (try cases s') <;>
      first
      | rfl
      | exact congrArg some (hfinite ..)
      | exact congrArg (some ∘ Ordering.swap) (hfinite ..)

theorem exists_compare_eq_some {u v : UnpackedFloat} (hu : u.isNaN = false)
    (hv : v.isNaN = false) : ∃ o, u.compare v = some o := by
  fun_cases UnpackedFloat.compare u v with
  | case1 => cases hu
  | case2 => cases hv
  | _ => exact ⟨_, rfl⟩

/-- Floats that are numbers are in order, one way or the other. -/
theorem not_lt_iff_le {x y : Float} (hx : x.isNaN = false) (hy : y.isNaN = false) :
    ¬ x < y ↔ y ≤ x := by
  obtain ⟨o, ho⟩ : ∃ o, x.toModel.unpack.compare y.toModel.unpack = some o :=
    exists_compare_eq_some hx hy
  rw [lt_iff_compare, le_iff_compare, compare_swap x.toModel.unpack, ho]
  cases o <;> decide

end QuantileSketch

namespace QuantileSketch.RankError

/-! ### Bit patterns -/

section Fields

variable {b : BitVec Format.binary64.numBits}

theorem toNat_unpackMantissa : (unpackMantissa b).toNat = b.toNat % 2 ^ 52 := rfl

theorem toNat_unpackExponent : (unpackExponent b).toNat = b.toNat / 2 ^ 52 % 2 ^ 11 := by
  show b.toNat >>> 52 % 2 ^ 11 = _
  rw [Nat.shiftRight_eq_div_pow]

theorem toNat_unpackSign : (unpackSign b).toNat = b.toNat / 2 ^ 63 := by
  have hlt : b.toNat < 2 ^ 64 := b.isLt
  show b.toNat >>> 63 % 2 ^ 1 = _
  rw [Nat.shiftRight_eq_div_pow]
  omega

theorem sign_eq_positive_iff : Sign.ofBitVec (unpackSign b) = .positive ↔ b.toNat < 2 ^ 63 := by
  have hzero : unpackSign b = 0#1 ↔ b.toNat < 2 ^ 63 := by
    rw [← BitVec.toNat_inj, toNat_unpackSign]
    show b.toNat / 2 ^ 63 = 0 ↔ _
    omega
  rw [← hzero, Sign.ofBitVec]
  by_cases h : unpackSign b = 0#1
  · rw [if_pos h]
    exact iff_of_true rfl h
  · rw [if_neg h]
    exact iff_of_false nofun h

theorem exponent_eq_ones_iff : unpackExponent b = -1#11 ↔ b.toNat / 2 ^ 52 % 2 ^ 11 = 2047 := by
  rw [← BitVec.toNat_inj, toNat_unpackExponent]
  rfl

/-- A pattern below that of infinity is that of a positive finite float, unless it is zero. -/
theorem unpack_positive (hpos : 0 < b.toNat) (hlt : b.toNat < 2047 * 2 ^ 52) :
    ∃ m e hm, UnpackedFloat.unpack .binary64 b = .finite .positive m e hm := by
  have hfinite : unpackExponent b ≠ -1#11 := by
    rw [ne_eq, exponent_eq_ones_iff]
    omega
  rw [UnpackedFloat.unpack]
  simp only [sign_eq_positive_iff.mpr (show b.toNat < 2 ^ 63 by omega)]
  rw [if_neg hfinite]
  split
  · rename_i hzero
    have hmantissa : 0 < (unpackMantissa b).toNat := by
      have hexponent := congrArg BitVec.toNat hzero
      rw [toNat_unpackExponent, BitVec.toNat_zero] at hexponent
      rw [toNat_unpackMantissa]
      omega
    rw [dif_neg fun h => hmantissa.ne' (congrArg BitVec.toNat h)]
    exact ⟨_, _, hmantissa, rfl⟩
  · have hmantissa : 0 < (1#1 ++ unpackMantissa b).toNat := by
      rw [toNat_one_append]
      omega
    exact ⟨_, _, hmantissa, rfl⟩

/-- The pattern of a positive finite float holds its exponent and its mantissa. -/
theorem toNat_eq_of_unpack {m : ℕ} {e : ℤ} {hm : 0 < m}
    (h : UnpackedFloat.unpack .binary64 b = .finite .positive m e hm) :
    (b.toNat : ℤ) = (e + 1074) * 2 ^ 52 + m ∧ e ≤ 971 := by
  have hbias : ((Format.binary64.exponentBias : ℕ) : ℤ) = 1023 := rfl
  have hbits : ((Format.binary64.mantissaBitsWithoutImplicit : ℕ) : ℤ) = 52 := rfl
  have hexponent := toNat_unpackExponent (b := b)
  have hmantissa := toNat_unpackMantissa (b := b)
  rw [UnpackedFloat.unpack] at h
  simp only [hbias, hbits] at h
  split at h
  · split at h <;> cases h
  · rename_i hfinite
    rw [exponent_eq_ones_iff] at hfinite
    split at h
    · rename_i hzero
      split at h
      · cases h
      · obtain ⟨hsign, rfl, rfl⟩ := UnpackedFloat.finite.inj h
        rw [sign_eq_positive_iff] at hsign
        rw [hzero, BitVec.toNat_zero] at hexponent
        rw [hzero, BitVec.toNat_zero, hmantissa]
        omega
    · obtain ⟨hsign, rfl, rfl⟩ := UnpackedFloat.finite.inj h
      rw [sign_eq_positive_iff] at hsign
      rw [toNat_one_append, hmantissa, hexponent]
      omega

end Fields

/-! ### The places of positive finite floats -/

/-- The float is positive and finite. -/
def IsPositive (x : Float) : Prop := 0 < place x ∧ place x < 2047 * 2 ^ 52

theorem isPositive_of_place_le {x y z : Float} (hx : IsPositive x) (hz : IsPositive z)
    (hxy : place x ≤ place y) (hyz : place y ≤ place z) : IsPositive y :=
  ⟨hx.1.trans_le hxy, hyz.trans_lt hz.2⟩

theorem IsPositive.unpack_eq {x : Float} (h : IsPositive x) :
    ∃ m e hm, x.toModel.unpack = .finite .positive m e hm :=
  unpack_positive h.1 h.2

theorem place_eq_of_unpack {x : Float} {m : ℕ} {e : ℤ} {hm : 0 < m}
    (h : x.toModel.unpack = .finite .positive m e hm) :
    (place x : ℤ) = (e + 1074) * 2 ^ 52 + m :=
  (toNat_eq_of_unpack h).1

theorem isPositive_of_unpack {x : Float} {m : ℕ} {e : ℤ} {hm : 0 < m}
    (h : x.toModel.unpack = .finite .positive m e hm) : IsPositive x := by
  have hplace := place_eq_of_unpack h
  have hgreatest := (toNat_eq_of_unpack h).2
  obtain ⟨hlt, hleast, -⟩ := canonical_of_unpack h
  rw [IsPositive]
  omega

theorem IsPositive.isNaN_eq_false {x : Float} (h : IsPositive x) : x.isNaN = false := by
  obtain ⟨m, e, hm, hx⟩ := h.unpack_eq
  show x.toModel.unpack.isNaN = false
  rw [hx]
  rfl

/-- Positive finite floats are compared by their places. -/
theorem compare_place {x y : Float} (hx : IsPositive x) (hy : IsPositive y) :
    x.toModel.unpack.compare y.toModel.unpack = some (compare (place x) (place y)) := by
  obtain ⟨m, e, hm, hx⟩ := hx.unpack_eq
  obtain ⟨m', e', hm', hy⟩ := hy.unpack_eq
  have hplace := place_eq_of_unpack hx
  have hplace' := place_eq_of_unpack hy
  obtain ⟨hlt, hleast, hnormal⟩ := canonical_of_unpack hx
  obtain ⟨hlt', hleast', hnormal'⟩ := canonical_of_unpack hy
  rw [hx, hy]
  refine congrArg some (compare_then_eq ?_ ?_ ?_)
  · omega
  · omega
  · omega

theorem le_iff_place_le {x y : Float} (hx : IsPositive x) (hy : IsPositive y) :
    x ≤ y ↔ place x ≤ place y := by
  rw [le_iff_compare, compare_place hx hy, Option.any_some, Ordering.isLE_iff_ne_gt]
  exact compare_le_iff_le

theorem lt_iff_place_lt {x y : Float} (hx : IsPositive x) (hy : IsPositive y) :
    x < y ↔ place x < place y := by
  rw [lt_iff_compare, compare_place hx hy, Option.some_inj, compare_lt_iff_lt]

/-- What lies between positive finite floats is positive and finite. -/
theorem isPositive_of_between {x y z : Float} (hx : IsPositive x) (hz : IsPositive z)
    (hxy : x < y) (hyz : y < z) : IsPositive y := by
  obtain ⟨m, e, hm, hx⟩ := hx.unpack_eq
  obtain ⟨m', e', hm', hz⟩ := hz.unpack_eq
  rw [lt_iff_compare, hx] at hxy
  rw [lt_iff_compare, hz] at hyz
  cases hy : y.toModel.unpack with
  | notANumber => rw [hy] at hxy; cases hxy
  | infinity s =>
    rw [hy] at hxy hyz
    cases s with
    | negative => cases hxy
    | positive => cases hyz
  | zero s => rw [hy] at hxy; cases hxy
  | finite s n l hn =>
    cases s with
    | negative => rw [hy] at hxy; cases hxy
    | positive => exact isPositive_of_unpack hy

/-- A float lies between positive finite floats if its place lies between theirs. -/
theorem place_between_iff {x y z : Float} (hx : IsPositive x) (hz : IsPositive z) :
    place x < place y ∧ place y < place z ↔ x < y ∧ y < z := by
  constructor
  · rintro ⟨hxy, hyz⟩
    have hy := isPositive_of_place_le hx hz hxy.le hyz.le
    exact ⟨(lt_iff_place_lt hx hy).mpr hxy, (lt_iff_place_lt hy hz).mpr hyz⟩
  · rintro ⟨hxy, hyz⟩
    have hy := isPositive_of_between hx hz hxy hyz
    exact ⟨(lt_iff_place_lt hx hy).mp hxy, (lt_iff_place_lt hy hz).mp hyz⟩

end QuantileSketch.RankError

namespace QuantileSketch.Rounding

/-! ### Comparing with any float -/

/-- What is no less than a float that is not negative is no such float only if it is
infinite. -/
theorem Magnitude.of_le {a b : Float} {x : ℚ} (ha : Magnitude a.toModel.unpack x) (h : a ≤ b) :
    b.toModel.unpack = .infinity .positive ∨ ∃ y, Magnitude b.toModel.unpack y := by
  rw [le_iff_compare] at h
  generalize a.toModel.unpack = u at ha h
  cases hb : b.toModel.unpack with
  | notANumber => rw [hb] at h; cases ha <;> cases h
  | infinity s =>
    cases s with
    | negative => rw [hb] at h; cases ha <;> cases h
    | positive => exact .inl rfl
  | zero s => exact .inr ⟨0, .zero s⟩
  | finite s m e hm =>
    cases s with
    | negative => rw [hb] at h; cases ha <;> cases h
    | positive => exact .inr ⟨_, .positive hm (canonical_of_unpack hb)⟩

/-- A float that is at least the greater one of two is at least the lesser one. -/
theorem Magnitude.le_trans {a b c : Float} {x y : ℚ} (ha : Magnitude a.toModel.unpack x)
    (hb : Magnitude b.toModel.unpack y) (hab : x ≤ y) (hbc : b ≤ c) : a ≤ c := by
  rcases hb.of_le hbc with hc | ⟨z, hc⟩
  · rw [le_iff_compare, hc]
    generalize a.toModel.unpack = u at ha
    cases ha <;> rfl
  · exact (ha.le_iff hc).mpr (hab.trans ((hb.le_iff hc).mp hbc))

end QuantileSketch.Rounding
