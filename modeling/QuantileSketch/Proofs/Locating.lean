/-
Finding a position in running weights.

The search keeps two places, the entries at which are at or below the position and above it,
and moves one of them halfway to the other until they are neighbours.

* `FallsIn` — a place that a position falls in;
* `locateRound` — a round of the search, which reads one entry that has to be there;
* `exists_runs_locate` — the search ends after as many rounds as the distance can be halved,
  and reads no entry that is not there;
* `FallsIn.le_of_le` — in entries that do not decrease, a greater position falls in no lower
  place;
* `locate_correct` — what the search finds.

Design notes: that a position falls in the place that is found needs no order of the entries.
The entries are only compared, so nothing is asked of their size.
-/
import Mathlib.Data.Nat.Log
import QuantileSketch.Proofs.OrderStatistics
import QuantileSketch.Proofs.Rounds

namespace QuantileSketch

variable {cumulative : Array ℕ} {pos pos' i j : ℕ}

/-! ### The place of a position -/

/-- The position falls in the place `i`: the entry there is at most the position, and the next
entry is above it. -/
def FallsIn (cumulative : Array ℕ) (pos i : ℕ) : Prop :=
  ∃ h : i + 1 < cumulative.size, cumulative[i] ≤ pos ∧ pos < cumulative[i + 1]

/-- If entries do not decrease, a greater position falls in no lower place. -/
theorem FallsIn.le_of_le (hordered : cumulative.toList.Pairwise (· ≤ ·)) (h : pos ≤ pos')
    (hi : FallsIn cumulative pos i) (hj : FallsIn cumulative pos' j) : i ≤ j := by
  obtain ⟨hisize, hile, -⟩ := hi
  obtain ⟨hjsize, -, hjlt⟩ := hj
  by_contra hlt
  rw [Nat.not_le] at hlt
  -- The entry after `j` is above `pos'`, and the one at `i` is no lower.
  have hentries : cumulative[j + 1] ≤ cumulative[i] := by
    rcases Nat.lt_or_eq_of_le hlt with hlt | rfl
    · exact List.pairwise_iff_getElem.mp hordered (j + 1) i hjsize (by simp; omega) hlt
    · exact Nat.le_refl _
  omega

/-- If entries do not decrease, a position falls in one place only. -/
theorem FallsIn.unique (hordered : cumulative.toList.Pairwise (· ≤ ·))
    (hi : FallsIn cumulative pos i) (hj : FallsIn cumulative pos j) : i = j :=
  Nat.le_antisymm (hi.le_of_le hordered (Nat.le_refl pos) hj)
    (hj.le_of_le hordered (Nat.le_refl pos) hi)

/-- A position between the first entry and the last one falls in the place that is found. -/
theorem fallsIn_locate (hsize : 2 ≤ cumulative.size) (hfirst : cumulative[0] ≤ pos)
    (hlast : pos < cumulative[cumulative.size - 1]) :
    FallsIn cumulative pos (locate cumulative pos) := by
  have hentry : ∀ i (h : i < cumulative.size), cumulative[i] = cumulative[i]?.getD 0 := by
    intro i h
    rw [Array.getElem?_eq_getElem h, Option.getD_some]
  have hlength : cumulative.size = cumulative.size - 1 + 1 := by omega
  rw [hentry 0 (by omega)] at hfirst
  rw [hentry (cumulative.size - 1) (by omega)] at hlast
  obtain ⟨hlt, hle, hgt⟩ := locate_spec hentry hlength hfirst hlast
  rw [← hentry _ (by omega)] at hle hgt
  exact ⟨by omega, hle, hgt⟩

/-! ### The search, round by round -/

/-- A round of the search: it is over if the two places are neighbours, and else reads the
entry halfway, which takes the place of one of the two. -/
def locateRound (cumulative : Array ℕ) (pos : ℕ) (places : ℕ × ℕ) :
    Option (ForInStep (ℕ × ℕ)) :=
  if places.1 + 1 < places.2 then
    let mid := places.1 + (places.2 - places.1) / 2
    cumulative[mid]?.map fun entry =>
      .yield (if entry ≤ pos then (mid, places.2) else (places.1, mid))
  else some (.done places)

/-- Half of a distance can be halved once less. -/
theorem clog_lt_clog {d e : ℕ} (hd : 2 ≤ d) (he : e ≤ (d + 1) / 2) :
    Nat.clog 2 e < Nat.clog 2 d := by
  rw [Nat.clog_of_two_le Nat.one_lt_two hd, Nat.lt_succ_iff]
  exact Nat.clog_mono_right 2 he

/-- The search from here finds the place `i`. -/
def Finds (cumulative : Array ℕ) (pos i : ℕ) (places : ℕ × ℕ) : Prop :=
  ∃ h : places.2 < cumulative.size, places.1 < places.2
    ∧ locateBetween cumulative pos places.1 places.2 h = i

/-- A round reads an entry that is there, and then the search finds the same place, in half
the distance; or the place is found. -/
theorem Finds.round {places : ℕ × ℕ} (h : Finds cumulative pos i places) :
    (∃ places', locateRound cumulative pos places = some (.done places')
        ∧ places' = (i, i + 1))
      ∨ ∃ places', locateRound cumulative pos places = some (.yield places')
          ∧ Finds cumulative pos i places'
          ∧ Nat.clog 2 (places'.2 - places'.1) < Nat.clog 2 (places.2 - places.1) := by
  obtain ⟨lo, hi⟩ := places
  obtain ⟨hsize, hlt, rfl⟩ := h
  simp only at hsize hlt
  by_cases hgap : lo + 1 < hi
  · right
    have hmid : lo + (hi - lo) / 2 < cumulative.size := by omega
    simp only [locateRound, if_pos hgap, Array.getElem?_eq_getElem hmid, Option.map_some]
    rw [locateBetween, dif_pos hgap]
    by_cases hle : cumulative[lo + (hi - lo) / 2] ≤ pos
    · rw [if_pos hle, if_pos hle]
      refine ⟨_, rfl, ⟨hsize, by omega, rfl⟩, clog_lt_clog (by omega) ?_⟩
      simp only
      omega
    · rw [if_neg hle, if_neg hle]
      refine ⟨_, rfl, ⟨hmid, by omega, rfl⟩, clog_lt_clog (by omega) ?_⟩
      simp only
      omega
  · left
    obtain rfl : hi = lo + 1 := by omega
    rw [locateRound, if_neg hgap, locateBetween, dif_neg hgap]
    exact ⟨_, rfl, rfl⟩

/-- The search ends, after no more rounds than the distance can be halved. -/
theorem exists_runs_locate (pos : ℕ) (hsize : 2 ≤ cumulative.size) :
    ∃ t ≤ Nat.clog 2 (cumulative.size - 1),
      Runs (locateRound cumulative pos) t (0, cumulative.size - 1)
        (locate cumulative pos, locate cumulative pos + 1) := by
  have hstart : Finds cumulative pos (locate cumulative pos) (0, cumulative.size - 1) := by
    refine ⟨Nat.sub_lt (by omega) Nat.one_pos, by simp only; omega, ?_⟩
    rw [locate, dif_pos (by omega)]
  obtain ⟨t, ht, places, hruns, rfl⟩ := exists_runs (fun _ => Finds.round) hstart
  exact ⟨t, ht, hruns⟩

/-- **The search for a position is correct.**  For two entries or more, in any order, of which
the first is at most the position and the last is above it, the search ends after as many
rounds as the distance can be halved, reads no entry that is not there, and finds a place that
the position falls in.  If the entries do not decrease, this is the only one, and a greater
position has no lower place. -/
theorem locate_correct (hsize : 2 ≤ cumulative.size) (hfirst : cumulative[0] ≤ pos)
    (hlast : pos < cumulative[cumulative.size - 1]) :
    (∃ t ≤ Nat.clog 2 (cumulative.size - 1),
        Runs (locateRound cumulative pos) t (0, cumulative.size - 1)
          (locate cumulative pos, locate cumulative pos + 1))
      ∧ FallsIn cumulative pos (locate cumulative pos)
      ∧ (cumulative.toList.Pairwise (· ≤ ·) →
          (∀ i, FallsIn cumulative pos i → i = locate cumulative pos)
          ∧ ∀ pos', pos ≤ pos' → pos' < cumulative[cumulative.size - 1] →
              locate cumulative pos ≤ locate cumulative pos') := by
  have hplace := fallsIn_locate hsize hfirst hlast
  refine ⟨exists_runs_locate pos hsize, hplace, fun hordered => ⟨?_, ?_⟩⟩
  · intro i hi
    exact hi.unique hordered hplace
  · intro pos' hle hlast'
    exact hplace.le_of_le hordered hle (fallsIn_locate hsize (hfirst.trans hle) hlast')

/-- Running weights of items from a buffer and from two levels. -/
def mixedWeights : Array ℕ := #[0, 2, 6, 10, 11, 13]

theorem locate_correct_mixedWeights :
    (2 ≤ mixedWeights.size ∧ mixedWeights[0] ≤ 9 ∧ 9 < mixedWeights[mixedWeights.size - 1]
      ∧ mixedWeights.toList.Pairwise (· ≤ ·))
      ∧ (∃ t ≤ 3, Runs (locateRound mixedWeights 9) t (0, 5) (2, 3))
      ∧ locate mixedWeights 9 = 2
      ∧ locate mixedWeights 9 ≤ locate mixedWeights 12 := by
  have hordered : mixedWeights.toList.Pairwise (· ≤ ·) := by decide
  obtain ⟨⟨t, ht, hruns⟩, -, hmono⟩ :=
    @locate_correct mixedWeights 9 (by decide) (by decide) (by decide)
  obtain ⟨hunique, hle⟩ := hmono hordered
  have hplace : locate mixedWeights 9 = 2 := (hunique 2 ⟨by decide, by decide, by decide⟩).symm
  rw [hplace] at hruns
  exact ⟨⟨by decide, by decide, by decide, hordered⟩, ⟨t, ht, hruns⟩, hplace,
    hle 12 (by decide) (by decide)⟩

end QuantileSketch
