/-
How evenly words answer draws.

A number below a bound is the high half of the product of a word with the bound.  The words that
lead to one number are neighbours, so they are counted by where they start:

* `firstWord` — the least word for a number (`firstWord_le_iff`);
* `card_wordsFor_below` — the words for a number are those up to the first one for the next
  number;
* `card_wordsFor_below_eq_or`, `card_wordsFor_below_of_dvd` — how many these are, and how many if
  the bound divides the number of words;
* `highWord` — the high half, by way of 128 bits;
* `isPowerOfTwo_of_below_mem_mergeDraws` — the bounds of a sketch are powers of two;
* `Draw.ofWord_even` — all of this together.

Design notes: the first words are quotients that are rounded up, so from one to the next there is
the whole part of `2 ^ 64 / bound`, or one more.
-/
import Mathlib.Algebra.Order.Floor.Div
import Mathlib.Data.FinEnum
import Mathlib.Order.Interval.Finset.Nat
import QuantileSketch.Proofs.Unbiased
import QuantileSketch.Random.XorShift

namespace QuantileSketch

namespace Draw

variable {bound : ℕ}

/-! ### Rounding up -/

/-- From a multiple to the next one, a quotient that is rounded up grows by the quotient rounded
down at least, and by the quotient rounded up at most. -/
theorem ceilDiv_succ_mul {m bound : ℕ} (h : 0 < bound) (v : ℕ) :
    v * m ⌈/⌉ bound + m / bound ≤ (v + 1) * m ⌈/⌉ bound
      ∧ (v + 1) * m ⌈/⌉ bound ≤ v * m ⌈/⌉ bound + m ⌈/⌉ bound := by
  rw [Nat.add_mul, Nat.one_mul]
  constructor
  · have hnext : v * m + m ≤ bound * ((v * m + m) ⌈/⌉ bound) := le_smul_ceilDiv h
    have hdown : bound * (m / bound) ≤ m := Nat.mul_div_le m bound
    have hle : m / bound ≤ (v * m + m) ⌈/⌉ bound := by
      refine Nat.le_of_mul_le_mul_left ?_ h
      omega
    refine Nat.add_le_of_le_sub hle ?_
    rw [ceilDiv_le_iff_le_mul h, Nat.mul_sub]
    omega
  · have hfirst : v * m ≤ bound * (v * m ⌈/⌉ bound) := le_smul_ceilDiv h
    have hup : m ≤ bound * (m ⌈/⌉ bound) := le_smul_ceilDiv h
    rw [ceilDiv_le_iff_le_mul h, Nat.mul_add]
    omega

theorem ceilDiv_le_div_add_one {m bound : ℕ} (h : 0 < bound) : m ⌈/⌉ bound ≤ m / bound + 1 := by
  rw [ceilDiv_le_iff_le_mul h]
  exact (Nat.lt_mul_div_succ m h).le

/-! ### The words for a number -/

theorem toNat_ofWord_below (h : 0 < bound) (word : UInt64) :
    ((below bound h).ofWord word : ℕ) = word.toNat * bound / 2 ^ 64 :=
  Nat.shiftRight_eq_div_pow _ _

theorem ofWord_below_mono (h : 0 < bound) {word word' : UInt64} (hle : word ≤ word') :
    (below bound h).ofWord word ≤ (below bound h).ofWord word' := by
  rw [Fin.le_def, toNat_ofWord_below, toNat_ofWord_below]
  exact Nat.div_le_div_right (Nat.mul_le_mul_right bound hle)

/-- The least word that stands for `v`. -/
def firstWord (bound v : ℕ) : ℕ := v * 2 ^ 64 ⌈/⌉ bound

theorem firstWord_le_iff (h : 0 < bound) {v word : ℕ} :
    firstWord bound v ≤ word ↔ v ≤ word * bound / 2 ^ 64 := by
  rw [firstWord, ceilDiv_le_iff_le_mul h, Nat.le_div_iff_mul_le (Nat.two_pow_pos 64),
    Nat.mul_comm bound]

theorem firstWord_le (h : 0 < bound) {v : ℕ} (hv : v ≤ bound) : firstWord bound v ≤ 2 ^ 64 := by
  rw [firstWord_le_iff h, Nat.mul_div_cancel_left _ (Nat.two_pow_pos 64)]
  exact hv

/-- The words that stand for an answer. -/
def wordsFor (d : Draw) (v : Fin d.range) : Finset UInt64 :=
  Finset.univ.filter fun word => d.ofWord word = v

/-- The words for a number are those from its first one up to the first one for the next. -/
theorem card_wordsFor_below (h : 0 < bound) (v : Fin (below bound h).range) :
    ((below bound h).wordsFor v).card = firstWord bound (v + 1) - firstWord bound v := by
  have himage : ((below bound h).wordsFor v).image UInt64.toNat
      = Finset.Ico (firstWord bound v) (firstWord bound (v + 1)) := by
    ext m
    have hiff : m ∈ Finset.Ico (firstWord bound v) (firstWord bound (v + 1))
        ↔ m * bound / 2 ^ 64 = v := by
      rw [Finset.mem_Ico, firstWord_le_iff h, ← Nat.not_le, firstWord_le_iff h]
      omega
    rw [hiff, Finset.mem_image]
    constructor
    · rintro ⟨word, hword, rfl⟩
      rw [← toNat_ofWord_below h, (Finset.mem_filter.mp hword).2]
    · intro hm
      -- No word is as great as the first one for the bound would be.
      have hlt : m < 2 ^ 64 :=
        Nat.lt_of_lt_of_le (Finset.mem_Ico.mp (hiff.mpr hm)).2 (firstWord_le h v.isLt)
      have hword : (UInt64.ofNat m).toNat = m := by
        rw [UInt64.toNat_ofNat', Nat.mod_eq_of_lt hlt]
      refine ⟨UInt64.ofNat m, Finset.mem_filter.mpr ⟨Finset.mem_univ _, Fin.ext ?_⟩, hword⟩
      rw [toNat_ofWord_below, hword, hm]
  rw [← Nat.card_Ico, ← himage,
    Finset.card_image_of_injective _ fun a b hab => UInt64.toNat_inj.mp hab]

/-- There are as many words for a number as for any other, or one more. -/
theorem card_wordsFor_below_eq_or (h : 0 < bound) (v : Fin (below bound h).range) :
    ((below bound h).wordsFor v).card = 2 ^ 64 / bound
      ∨ ((below bound h).wordsFor v).card = 2 ^ 64 ⌈/⌉ bound := by
  obtain ⟨hlower, hupper⟩ := ceilDiv_succ_mul (m := 2 ^ 64) h v
  have hround := ceilDiv_le_div_add_one (m := 2 ^ 64) h
  rw [card_wordsFor_below h, firstWord, firstWord]
  generalize 2 ^ 64 = m at *
  omega

/-- If the bound divides the number of words, there are as many for each number. -/
theorem card_wordsFor_below_of_dvd (h : 0 < bound) (hdvd : bound ∣ 2 ^ 64)
    (v : Fin (below bound h).range) : ((below bound h).wordsFor v).card = 2 ^ 64 / bound := by
  have hexact : 2 ^ 64 ⌈/⌉ bound ≤ 2 ^ 64 / bound := by
    rw [ceilDiv_le_iff_le_mul h, Nat.mul_div_cancel' hdvd]
  obtain ⟨hlower, hupper⟩ := ceilDiv_succ_mul (m := 2 ^ 64) h v
  rw [card_wordsFor_below h, firstWord, firstWord]
  generalize 2 ^ 64 = m at *
  omega

theorem dvd_of_isPowerOfTwo (hpow : bound.isPowerOfTwo) (hbound : bound < 2 ^ 64) :
    bound ∣ 2 ^ 64 := by
  obtain ⟨e, rfl⟩ := hpow
  exact Nat.pow_dvd_pow 2 ((Nat.pow_lt_pow_iff_right Nat.one_lt_two).mp hbound).le

/-! ### The high half of a product -/

/-- The high half of the product of two words, by way of 128 bits. -/
def highWord (x y : UInt64) : UInt64 :=
  .ofBitVec (((x.toBitVec.setWidth 128 * y.toBitVec.setWidth 128) >>> 64).setWidth 64)

theorem toNat_highWord (x y : UInt64) :
    (highWord x y).toNat = x.toNat * y.toNat / 2 ^ 64 := by
  have hx := x.toNat_lt
  have hy := y.toNat_lt
  have hproduct : x.toNat * y.toNat < 2 ^ 128 :=
    (Nat.mul_lt_mul'' hx hy).trans_eq (Nat.pow_add 2 64 64).symm
  have hhigh : x.toNat * y.toNat / 2 ^ 64 < 2 ^ 64 :=
    (Nat.div_lt_iff_lt_mul (Nat.two_pow_pos 64)).mpr hproduct
  have hwide : ∀ z : UInt64, (z.toBitVec.setWidth 128).toNat = z.toNat := by
    intro z
    rw [BitVec.toNat_setWidth, UInt64.toNat_toBitVec]
    exact Nat.mod_eq_of_lt (z.toNat_lt.trans (by decide))
  rw [highWord, UInt64.toNat_ofBitVec, BitVec.toNat_setWidth, BitVec.toNat_ushiftRight,
    BitVec.toNat_mul, hwide, hwide, Nat.shiftRight_eq_div_pow, Nat.mod_eq_of_lt hproduct,
    Nat.mod_eq_of_lt hhigh]

end Draw

/-! ### The bounds that a sketch asks for -/

variable {bound : ℕ} {h : 0 < bound}

theorem below_not_mem_carryDraws (p start : ℕ) : .below bound h ∉ Levels.carryDraws p start := by
  intro hmem
  cases List.eq_of_mem_replicate hmem

theorem below_not_mem_updateAllDraws {k : ℕ} (hk : 0 < k) (n count : ℕ) :
    .below bound h ∉ updateAllDraws k n count := by
  intro hmem
  obtain ⟨m, hdraws, -⟩ := updateAllDraws_eq hk n count
  rw [hdraws] at hmem
  cases List.eq_of_mem_replicate hmem

theorem eq_of_below_mem_thinDraws {stride : ℕ} (hmem : .below bound h ∈ thinDraws stride) :
    bound = stride := by
  rw [thinDraws] at hmem
  split at hmem
  · cases List.mem_singleton.mp hmem
    rfl
  · cases hmem

theorem eq_of_below_mem_absorbBlocksDraws {stride shift p : ℕ} {levels : List ℕ}
    (hmem : .below bound h ∈ absorbBlocksDraws stride shift p levels) : bound = stride := by
  induction levels generalizing p with
  | nil => cases hmem
  | cons level levels ih =>
    rw [absorbBlocksDraws, List.mem_append, List.mem_append] at hmem
    rcases hmem with hthin | hcarry | hrest
    · exact eq_of_below_mem_thinDraws hthin
    · exact absurd hcarry (below_not_mem_carryDraws _ _)
    · exact ih hrest

theorem eq_of_below_mem_absorbDraws {k n k' n' : ℕ} (hk : 0 < k)
    (hmem : .below bound h ∈ absorbDraws k n k' n') : bound = k' / k := by
  rw [absorbDraws, List.mem_append] at hmem
  rcases hmem with hupdates | hblocks
  · exact absurd hupdates (below_not_mem_updateAllDraws hk _ _)
  · exact eq_of_below_mem_absorbBlocksDraws hblocks

/-- A merge asks for numbers below the ratio of the block sizes, which is a power of two. -/
theorem isPowerOfTwo_of_below_mem_mergeDraws {k n k' n' : ℕ} (hk : Admissible k)
    (hk' : Admissible k') (hmem : .below bound h ∈ mergeDraws k n k' n') :
    bound.isPowerOfTwo ∧ bound < 2 ^ 64 := by
  have hratio : ∀ {a b : ℕ}, Admissible a → Admissible b → a ≤ b → bound = b / a →
      bound.isPowerOfTwo ∧ bound < 2 ^ 64 := by
    intro a b ha hb hle hbound
    obtain ⟨e, -, he⟩ := ha.exists_stride hb hle
    have hmax : b ≤ 32768 := hb.2.1
    have hdiv : b / a ≤ b := Nat.div_le_self b a
    exact ⟨⟨e, hbound.trans he⟩, by omega⟩
  rw [mergeDraws] at hmem
  split at hmem
  · cases hmem
  · rcases List.mem_append.mp hmem with hreduced | habsorb
    · rw [reducedDraws] at hreduced
      split at hreduced
      · rename_i hlt
        exact hratio hk' hk hlt.le (eq_of_below_mem_absorbDraws hk'.pos hreduced)
      · cases hreduced
    · have hmin := hk.min hk'
      exact hratio hmin hk' (Nat.min_le_right k k') (eq_of_below_mem_absorbDraws hmin.pos habsorb)

namespace Draw

/-- **Numbers below a bound are answered as evenly as words allow.**  A source that gives words
spends one on an answer.  Every word gives a number below the bound, the high half of its product
with the bound, and greater words give no smaller numbers.  Of the `2 ^ 64` words, `2 ^ 64 / bound`
stand for each number, rounded down or up, and exactly as many if the bound is a power of two.
All the bounds that a merge asks for are powers of two. -/
theorem ofWord_even (h : 0 < bound) (hbound : bound < 2 ^ 64) :
    (∀ {ρ : Type} (next : ρ → UInt64 × ρ) (source : ρ),
        @RandomSource.answer ρ { next } (below bound h) source
          = ((below bound h).ofWord (next source).1, (next source).2))
      ∧ (∀ word, ((below bound h).ofWord word : ℕ) < bound
          ∧ ((below bound h).ofWord word : ℕ) = (highWord word (.ofNat bound)).toNat)
      ∧ (∀ word word', word ≤ word' →
          (below bound h).ofWord word ≤ (below bound h).ofWord word')
      ∧ (∀ v, ((below bound h).wordsFor v).card = 2 ^ 64 / bound
          ∨ ((below bound h).wordsFor v).card = 2 ^ 64 ⌈/⌉ bound)
      ∧ (bound.isPowerOfTwo → ∀ v, ((below bound h).wordsFor v).card = 2 ^ 64 / bound)
      ∧ ∀ {α : Type} {cmp : α → α → Ordering} [Std.TransCmp cmp] (s other : Sketch α cmp),
          s.Reachable → other.Reachable → ∃ merged ds, s.merge other = .ok merged
            ∧ merged.Asks ds ∧ ∀ stride pos, below stride pos ∈ ds → stride.isPowerOfTwo
              ∧ ∀ v, ((below stride pos).wordsFor v).card = 2 ^ 64 / stride := by
  refine ⟨fun next source => rfl, fun word => ⟨((below bound h).ofWord word).isLt, ?_⟩,
    fun word word' => ofWord_below_mono h, card_wordsFor_below_eq_or h,
    fun hpow => card_wordsFor_below_of_dvd h (dvd_of_isPowerOfTwo hpow hbound), ?_⟩
  · rw [toNat_ofWord_below, toNat_highWord, UInt64.toNat_ofNat', Nat.mod_eq_of_lt hbound]
  · intro α cmp _ s other hs hother
    obtain ⟨merged, hmerge, -⟩ := Asserted.merge_eq hs.sound hother.sound
    have haverages := hs.sound.averages_merge (fun _ => false) hother.sound hmerge
    refine ⟨merged, _, hmerge, haverages.asks, fun stride pos hmem => ?_⟩
    obtain ⟨hpow, hlt⟩ :=
      isPowerOfTwo_of_below_mem_mergeDraws hs.sound.size hother.sound.size hmem
    exact ⟨hpow, card_wordsFor_below_of_dvd pos (dvd_of_isPowerOfTwo hpow hlt)⟩

/-- Three does not divide the number of words, so these are not as many for each number. -/
theorem ofWord_even_three :
    0 < 3 ∧ 3 < 2 ^ 64
      ∧ (∀ v, ((below 3 (by decide)).wordsFor v).card = 6148914691236517205
        ∨ ((below 3 (by decide)).wordsFor v).card = 6148914691236517206)
      ∧ (below 3 (by decide)).ofWord 5 ≤ (below 3 (by decide)).ofWord 6148914691236517206 := by
  have hpos : 0 < 3 := by decide
  have hlt : 3 < 2 ^ 64 := by decide
  obtain ⟨-, -, hmono, hcard, -⟩ := ofWord_even hpos hlt
  exact ⟨hpos, hlt, hcard, hmono _ _ (by decide)⟩

end Draw

end QuantileSketch
