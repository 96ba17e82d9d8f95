/-
Where a bisection ends.

A search keeps two values, the ends of its bracket, of which the lower one is covered and the
upper one is not.  It ends once the tolerance is met, or once the midpoint is no longer
strictly between the ends:

* `narrowRound` — a round of the search;
* `Bracketed` — the bracket that a search is left with;
* `Between.round`, `exists_runs_bisect` — a round keeps the bracket and brings its ends
  closer, so the search ends;
* `isNaN_midpoint` — half the sum of two positive finite floats is a number;
* `bisect_ends` — searches in finite orders, and the search for a rank error.

Design notes: the tolerance can be near the distance of neighbouring values, so the ends do
not come closer by any fraction.  What gets less is the number of values strictly between
them, and to begin with there are only so many.  A numbering `place` of the values counts
them; it has to tell of midpoints alone whether they are strictly between the ends, and so
also does for floats, some of which are in no order.
-/
import Mathlib.Data.Set.Card
import Mathlib.Order.Interval.Set.LinearOrder
import QuantileSketch.Proofs.Bisection
import QuantileSketch.Proofs.Rounds

namespace QuantileSketch

variable {β : Type} {place : β → ℕ} {midpoint : β → β → β} {wide : β → β → Bool}
  {covers : β → Bool} {lo hi : β}

/-! ### The search, round by round -/

section

variable [LE β] [DecidableLE β]

/-- A round of the search: it is over if the ends are no longer `wide` apart, or if the
midpoint is at one of them or beyond.  Else the midpoint takes the place of one of them. -/
def narrowRound (midpoint : β → β → β) (wide : β → β → Bool) (covers : β → Bool)
    (ends : β × β) : Option (ForInStep (β × β)) :=
  let mid := midpoint ends.1 ends.2
  some <|
    if wide ends.1 ends.2 then
      if mid ≤ ends.1 ∨ ends.2 ≤ mid then .done ends
      else if covers mid then .yield (mid, ends.2)
      else .yield (ends.1, mid)
    else .done ends

/-- The tolerance is met, or the midpoint is not strictly between the ends. -/
def IsNarrow (midpoint : β → β → β) (wide : β → β → Bool) (ends : β × β) : Prop :=
  wide ends.1 ends.2 = false
    ∨ midpoint ends.1 ends.2 ≤ ends.1 ∨ ends.2 ≤ midpoint ends.1 ends.2

/-- The bracket that a search from `lo` and `hi` is left with. -/
structure Bracketed [LT β] (midpoint : β → β → β) (wide : β → β → Bool) (covers : β → Bool)
    (lo hi : β) (ends : β × β) : Prop where
  lo_le : lo ≤ ends.1
  lt : ends.1 < ends.2
  le_hi : ends.2 ≤ hi
  isNarrow : IsNarrow midpoint wide ends
  /-- The lower end is covered and the upper one is not, if it was so at first. -/
  covered : covers lo = true → covers hi = false → covers ends.1 = true ∧ covers ends.2 = false

/-- Between `lo` and `hi`, whether a midpoint is strictly between two values can be told from
their places. -/
def Places (place : β → ℕ) (midpoint : β → β → β) (lo hi : β) : Prop :=
  ∀ ⦃x y⦄, place lo ≤ place x → place x < place y → place y ≤ place hi →
    ((midpoint x y ≤ x ∨ y ≤ midpoint x y) ↔
      ¬(place x < place (midpoint x y) ∧ place (midpoint x y) < place y))

/-- What every round keeps of a search from `lo` and `hi`. -/
structure Between (place : β → ℕ) (midpoint : β → β → β) (wide : β → β → Bool)
    (covers : β → Bool) (lo hi : β) (ends : β × β) : Prop where
  lo_le : place lo ≤ place ends.1
  lt : place ends.1 < place ends.2
  le_hi : place ends.2 ≤ place hi
  /-- A search from these ends finds the same. -/
  finds : bisect place midpoint wide covers ends.1 ends.2
    = bisect place midpoint wide covers lo hi
  covered : covers lo = true → covers hi = false → covers ends.1 = true ∧ covers ends.2 = false

/-- The number of places strictly between the ends. -/
def room (place : β → ℕ) (ends : β × β) : ℕ := place ends.2 - place ends.1 - 1

/-- A round of the search is the last one, or leaves less room between the ends. -/
theorem Between.round (hplace : Places place midpoint lo hi) {ends : β × β}
    (h : Between place midpoint wide covers lo hi ends) :
    (∃ ends', narrowRound midpoint wide covers ends = some (.done ends')
        ∧ Between place midpoint wide covers lo hi ends' ∧ IsNarrow midpoint wide ends'
        ∧ bisect place midpoint wide covers lo hi = ends'.1)
      ∨ ∃ ends', narrowRound midpoint wide covers ends = some (.yield ends')
          ∧ Between place midpoint wide covers lo hi ends'
          ∧ room place ends' < room place ends := by
  have houtside := hplace h.lo_le h.lt h.le_hi
  have hfinds := h.finds
  rw [bisect_eq houtside] at hfinds
  rw [narrowRound]
  by_cases hwide : wide ends.1 ends.2 = true
  · by_cases hmid : midpoint ends.1 ends.2 ≤ ends.1 ∨ ends.2 ≤ midpoint ends.1 ends.2
    · left
      rw [if_pos hwide, if_pos hmid] at hfinds ⊢
      exact ⟨ends, rfl, h, .inr hmid, hfinds.symm⟩
    · right
      rw [if_pos hwide, if_neg hmid] at hfinds ⊢
      obtain ⟨hlo, hhi⟩ := not_not.mp (houtside.not.mp hmid)
      by_cases hcovers : covers (midpoint ends.1 ends.2) = true
      · rw [if_pos hcovers] at hfinds ⊢
        refine ⟨_, rfl, ⟨h.lo_le.trans hlo.le, hhi, h.le_hi, hfinds, ?_⟩, ?_⟩
        · exact fun hlo hhi => ⟨hcovers, (h.covered hlo hhi).2⟩
        · simp only [room]
          omega
      · rw [if_neg hcovers] at hfinds ⊢
        refine ⟨_, rfl, ⟨h.lo_le, hlo, hhi.le.trans h.le_hi, hfinds, ?_⟩, ?_⟩
        · exact fun hlo hhi => ⟨(h.covered hlo hhi).1, Bool.eq_false_iff.mpr hcovers⟩
        · simp only [room]
          omega
  · left
    rw [if_neg hwide] at hfinds ⊢
    exact ⟨ends, rfl, h, .inl (Bool.eq_false_iff.mpr hwide), hfinds.symm⟩

/-- A search ends after no more rounds than there is room between its ends. -/
theorem exists_runs_bisect (wide : β → β → Bool) (covers : β → Bool)
    (hplace : Places place midpoint lo hi) (h : place lo < place hi) :
    ∃ t ≤ room place (lo, hi), ∃ ends, Runs (narrowRound midpoint wide covers) t (lo, hi) ends
      ∧ Between place midpoint wide covers lo hi ends ∧ IsNarrow midpoint wide ends
      ∧ bisect place midpoint wide covers lo hi = ends.1 := by
  have hstart : Between place midpoint wide covers lo hi (lo, hi) :=
    ⟨le_rfl, h, le_rfl, rfl, fun hlo hhi => ⟨hlo, hhi⟩⟩
  exact exists_runs (fun _ => Between.round hplace) hstart

end

/-! ### Finite orders -/

section

variable [LinearOrder β]

/-- Numbers in the order of the values tell of any midpoint whether it is strictly between. -/
theorem places_of_strictMono (hplace : StrictMono place) : Places place midpoint lo hi := by
  intro x y _ _ _
  rw [hplace.lt_iff_lt, hplace.lt_iff_lt, not_and_or, not_lt, not_lt]

theorem Between.bracketed (hplace : StrictMono place) {ends : β × β}
    (h : Between place midpoint wide covers lo hi ends) (hnarrow : IsNarrow midpoint wide ends) :
    Bracketed midpoint wide covers lo hi ends where
  lo_le := hplace.le_iff_le.mp h.lo_le
  lt := hplace.lt_iff_lt.mp h.lt
  le_hi := hplace.le_iff_le.mp h.le_hi
  isNarrow := hnarrow
  covered := h.covered

variable [Finite β]

/-- The number of values below a given one. -/
noncomputable def rankIn (x : β) : ℕ := (Set.Iio x).ncard

theorem rankIn_strictMono : StrictMono (rankIn : β → ℕ) := by
  intro x y hxy
  exact Set.ncard_lt_ncard (Set.Iio_ssubset_Iio hxy) (Set.toFinite _)

/-- There is room for the values strictly between two of them. -/
theorem room_rankIn (h : lo < hi) : room rankIn (lo, hi) = (Set.Ioo lo hi).ncard := by
  have hbelow : (Set.Iic lo).ncard = (Set.Iio lo).ncard + 1 := by
    rw [← Set.Iio_insert, Set.ncard_insert_of_notMem Set.self_notMem_Iio (Set.toFinite _)]
  have hsplit : (Set.Iio hi).ncard = (Set.Iic lo).ncard + (Set.Ioo lo hi).ncard := by
    rw [← Set.Iic_union_Ioo_eq_Iio h]
    refine Set.ncard_union_eq ?_ (Set.toFinite _) (Set.toFinite _)
    exact Set.disjoint_left.mpr fun x hx hx' => hx'.1.not_ge hx
  show (Set.Iio hi).ncard - (Set.Iio lo).ncard - 1 = _
  omega

end

end QuantileSketch

namespace QuantileSketch.RankError

open Float.Model Float.Model.UnpackedFloat

/-! ### Midpoints of floats -/

theorem isNaN_roundWithAccuracy (s : Sign) (m : ℕ) (e : ℤ) (accuracy : Accuracy) :
    (roundWithAccuracy .binary64 s m e accuracy).isNaN = false := by
  rw [roundWithAccuracy]
  simp only
  split <;> rfl

theorem isNaN_normalize (m e : ℤ) (s : Sign) :
    (UnpackedFloat.normalize .binary64 m e s).isNaN = false := by
  rw [UnpackedFloat.normalize]
  split
  · exact isNaN_roundWithAccuracy _ _ _ _
  · rfl
  · exact isNaN_roundWithAccuracy _ _ _ _

theorem isNaN_unpack_packComponents {exponent : BitVec 11} (h : exponent ≠ -1#11) (s : Sign)
    (mantissa : BitVec 52) :
    (UnpackedFloat.unpack .binary64 (packComponents .binary64 s exponent mantissa)).isNaN
      = false := by
  rw [UnpackedFloat.unpack]
  simp only [unpackMantissa_packComponents, unpackExponent_packComponents,
    unpackSign_packComponents, Sign.ofBitVec_toBitVec]
  rw [if_neg h]
  split
  · split <;> rfl
  · rfl

/-- What is packed is a number if it was one. -/
theorem isNaN_unpack_pack {u : UnpackedFloat} (h : u.isNaN = false) :
    (Float.Model.pack u).unpack.isNaN = false := by
  cases u with
  | notANumber => cases h
  | infinity s => cases s <;> rfl
  | zero s => cases s <;> rfl
  | finite s m e hm =>
    show (UnpackedFloat.unpack .binary64 (UnpackedFloat.pack .binary64 _)).isNaN = false
    rw [UnpackedFloat.pack]
    simp only
    split
    · cases s <;> rfl
    · rename_i hlt
      split
      · -- The exponent is not too great, so its digits are not all ones.
        refine isNaN_unpack_packComponents ?_ _ _
        intro heq
        have hexponent := congrArg BitVec.toNat heq
        rw [BitVec.toNat_ofNat] at hexponent
        have hones : (-1#11).toNat = 2047 := rfl
        omega
      · exact isNaN_unpack_packComponents (by decide) _ _

/-- Half the sum of two positive finite floats is a number. -/
theorem isNaN_midpoint {x y : Float} (hx : IsPositive x) (hy : IsPositive y) :
    ((x + y) / 2.0).isNaN = false := by
  obtain ⟨m, e, hm, hx⟩ := hx.unpack_eq
  obtain ⟨m', e', hm', hy⟩ := hy.unpack_eq
  have htwo : IsPositive 2.0 := ⟨by decide, by decide⟩
  obtain ⟨n, l, hn, htwo⟩ := htwo.unpack_eq
  have hsum : (x + y).toModel.unpack.isNaN = false := by
    show (Float.Model.pack (.add .binary64 x.toModel.unpack y.toModel.unpack)).unpack.isNaN = false
    rw [hx, hy]
    exact isNaN_unpack_pack (isNaN_normalize _ _ _)
  show (Float.Model.pack (.div .binary64 (x + y).toModel.unpack
    (2.0 : Float).toModel.unpack)).unpack.isNaN = false
  refine isNaN_unpack_pack ?_
  rw [htwo]
  -- The sum is a number, and a number that is finite and not zero divides any other.
  cases hu : (x + y).toModel.unpack with
  | notANumber => rw [hu] at hsum; cases hsum
  | infinity s => rfl
  | zero s => rfl
  | finite s m e hm => exact isNaN_roundWithAccuracy _ _ _ _

/-! ### The search for a rank error -/

/-- Between positive finite floats, midpoints that are numbers can be told by their places. -/
theorem places_of_isPositive {midpoint : Float → Float → Float}
    (hmid : ∀ x y, IsPositive x → IsPositive y → (midpoint x y).isNaN = false) {lo hi : Float}
    (hlo : IsPositive lo) (hhi : IsPositive hi) : Places place midpoint lo hi := by
  intro x y hx hxy hy
  have hxpos := isPositive_of_place_le hlo hhi hx (hxy.le.trans hy)
  have hypos := isPositive_of_place_le hlo hhi (hx.trans hxy.le) hy
  exact midpoint_outside_iff hxpos hypos (hmid x y hxpos hypos)

/-- The search for a rank error ends, in its bracket. -/
theorem exists_runs_search {midpoint : Float → Float → Float}
    (hmid : ∀ x y, IsPositive x → IsPositive y → (midpoint x y).isNaN = false)
    (wide : Float → Float → Bool) (size : Float → Float) (k : ℕ) :
    ∃ t ≤ room place (leastError, greatestError), ∃ ends,
      Runs (narrowRound midpoint wide fun eps => Float.ofNat k * overstatement ≤ size eps)
        t (leastError, greatestError) ends
      ∧ Bracketed midpoint wide (fun eps => Float.ofNat k * overstatement ≤ size eps) leastError
          greatestError ends
      ∧ search midpoint wide size k = ends.1 := by
  have hleast := isPositive_leastError
  have hgreatest := isPositive_greatestError
  have hplace := places_of_isPositive hmid hleast hgreatest
  obtain ⟨t, ht, ends, hruns, h, hnarrow, hsearch⟩ :=
    exists_runs_bisect wide (fun eps => Float.ofNat k * overstatement ≤ size eps) hplace
      place_leastError_lt
  have hlo := isPositive_of_place_le hleast hgreatest h.lo_le (h.lt.le.trans h.le_hi)
  have hhi := isPositive_of_place_le hleast hgreatest (h.lo_le.trans h.lt.le) h.le_hi
  refine ⟨t, ht, ends, hruns, ⟨?_, ?_, ?_, hnarrow, h.covered⟩, hsearch⟩
  · exact (le_iff_place_le hleast hlo).mpr h.lo_le
  · exact (lt_iff_place_lt hlo hhi).mpr h.lt
  · exact (le_iff_place_le hhi hgreatest).mpr h.le_hi

end QuantileSketch.RankError

namespace QuantileSketch

open RankError in
/-- **A bisection ends inside its bracket.**  In a finite order, whatever the midpoints, the
tolerance and the test are, a search from two values ends after no more rounds than there are
values strictly between them.  The ends it is left with are in order between the two values;
the lower one is covered and the upper one is not, if that is so of the values; and either the
tolerance is met or the midpoint is not strictly between the ends.  The lower one is what the
search finds.  All this holds of the search for a rank error, too, whatever its tolerance and
the theoretical sizes are. -/
theorem bisect_ends {β : Type} [LinearOrder β] [Finite β] (midpoint : β → β → β)
    (wide : β → β → Bool) (covers : β → Bool) {lo hi : β} (h : lo < hi) :
    (∃ t ≤ (Set.Ioo lo hi).ncard, ∃ ends,
        Runs (narrowRound midpoint wide covers) t (lo, hi) ends
          ∧ Bracketed midpoint wide covers lo hi ends
          ∧ ∀ place : β → ℕ, StrictMono place →
              bisect place midpoint wide covers lo hi = ends.1)
      ∧ ∀ (wide : Float → Float → Bool) (size : Float → Float) (k : ℕ),
          ∃ t ≤ room place (leastError, greatestError), ∃ ends,
            Runs (narrowRound (fun lo hi => (lo + hi) / 2.0) wide
                fun eps => Float.ofNat k * overstatement ≤ size eps)
              t (leastError, greatestError) ends
            ∧ Bracketed (fun lo hi => (lo + hi) / 2.0) wide
                (fun eps => Float.ofNat k * overstatement ≤ size eps) leastError greatestError
                ends
            ∧ search (fun lo hi => (lo + hi) / 2.0) wide size k = ends.1 := by
  refine ⟨?_, exists_runs_search fun _ _ => isNaN_midpoint⟩
  obtain ⟨t, ht, ends, hruns, hbetween, hnarrow, -⟩ :=
    exists_runs_bisect wide covers (places_of_strictMono rankIn_strictMono) (rankIn_strictMono h)
  rw [room_rankIn h] at ht
  refine ⟨t, ht, ends, hruns, hbetween.bracketed rankIn_strictMono hnarrow, ?_⟩
  -- However the values are numbered, the rounds are the same.
  intro place hplace
  obtain ⟨t', -, ends', hruns', -, -, hbisect⟩ :=
    exists_runs_bisect wide covers (places_of_strictMono hplace) (hplace h)
  obtain ⟨-, rfl⟩ := hruns.unique hruns'
  exact hbisect

/-- The midpoint of two numbers below sixteen. -/
def halfway (x y : Fin 16) : Fin 16 := ⟨(x + y : ℕ) / 2, by omega⟩

/-- The square root of `50`, searched until the ends are neighbours. -/
theorem bisect_ends_sqrt :
    (0 : Fin 16) < 15
      ∧ ∃ t ≤ (Set.Ioo (0 : Fin 16) 15).ncard,
          Runs (narrowRound halfway (fun _ _ => true) fun x => (x * x : ℕ) ≤ 50) t (0, 15) (7, 8)
          ∧ bisect Fin.val halfway (fun _ _ => true) (fun x => (x * x : ℕ) ≤ 50) 0 15 = 7 := by
  have hlt : (0 : Fin 16) < 15 := by decide
  obtain ⟨⟨t, ht, ends, hruns, h, hbisect⟩, -⟩ :=
    bisect_ends halfway (fun _ _ => true) (fun x => (x * x : ℕ) ≤ 50) hlt
  have hends : ∀ x y : Fin 16, (x * x : ℕ) ≤ 50 → ¬ (y * y : ℕ) ≤ 50 →
      halfway x y ≤ x ∨ y ≤ halfway x y → x = 7 ∧ y = 8 := by decide
  obtain ⟨hlo, hhi⟩ := h.covered rfl rfl
  obtain ⟨lo, hi⟩ := ends
  obtain ⟨rfl, rfl⟩ := hends lo hi (of_decide_eq_true hlo) (of_decide_eq_false hhi)
    (h.isNarrow.resolve_left nofun)
  exact ⟨hlt, t, ht, hruns, hbisect Fin.val fun _ _ => id⟩

end QuantileSketch
