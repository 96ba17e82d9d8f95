/-
What levels hold.

The levels of a sketch are described in two ways.  They are `Regular` for a block size
`k` if each of them is free or holds `k` items in order, and the highest one is
occupied; this is what single steps keep.  They are `LaidOut` by a pattern if the bits
of the pattern tell which of them hold `k` items; this is what a sketch is to look like
from outside.  For the pattern of the levels themselves the two are the same
(`LaidOut.regular`, `Regular.laidOut`).

* `weigh` — a sum over the levels, with the weights of their items;
* `Holds` — levels hold as many items as a pattern calls for, in whatever order.

Design notes: `weigh` doubles from level to level, as patterns do, so what it comes to
is shown by one induction along the levels.
-/
import QuantileSketch.Proofs.Pattern
import QuantileSketch.Levels

namespace QuantileSketch.Levels

variable {α : Type} {cmp : α → α → Ordering} {k : ℕ}

/-! ### Patterns of levels -/

theorem pattern_free (levels : List (List α)) :
    pattern ([] :: levels) = 0 + 2 * pattern levels := rfl

theorem pattern_occupied {level : List α} (h : level ≠ []) (levels : List (List α)) :
    pattern (level :: levels) = 1 + 2 * pattern levels := by
  rw [pattern, if_neg (by simpa using h)]

theorem pattern_cons (level : List α) (levels : List (List α)) :
    ∃ b < 2, pattern (level :: levels) = b + 2 * pattern levels := by
  rcases eq_or_ne level [] with rfl | h
  · exact ⟨0, by decide, rfl⟩
  · exact ⟨1, by decide, pattern_occupied h levels⟩

theorem mem_occupiedFrom {i : ℕ} {levels : List (List α)} {b : ℕ × List α}
    (h : b ∈ occupiedFrom i levels) : b.2 ∈ levels ∧ b.2 ≠ [] := by
  induction levels generalizing i with
  | nil => cases h
  | cons level levels ih =>
    rw [occupiedFrom] at h
    split at h
    · exact ⟨List.mem_cons_of_mem _ (ih h).1, (ih h).2⟩
    · rename_i hne
      rcases List.mem_cons.mp h with rfl | h
      · exact ⟨List.mem_cons_self, by simpa using hne⟩
      · exact ⟨List.mem_cons_of_mem _ (ih h).1, (ih h).2⟩

/-- The occupied levels are those of the pattern. -/
theorem map_fst_occupiedFrom (i : ℕ) (levels : List (List α)) :
    (occupiedFrom i levels).map Prod.fst = (occupiedLevels (pattern levels)).map (i + ·) := by
  induction levels generalizing i with
  | nil => rfl
  | cons level levels ih =>
    -- To count from `i + 1` is to count one level higher from `i`.
    have hshift : (occupiedLevels (pattern levels)).map (i + 1 + ·)
        = ((occupiedLevels (pattern levels)).map (· + 1)).map (i + ·) := by
      rw [List.map_map]
      exact List.map_congr_left fun j _ => by rw [Function.comp_apply]; omega
    rw [occupiedFrom]
    split
    · rename_i hempty
      rw [List.isEmpty_iff.mp hempty, pattern_free, occupiedLevels_bit Nat.two_pos, ih, hshift]
      rfl
    · rename_i hne
      rw [pattern_occupied (by simpa using hne), occupiedLevels_bit Nat.one_lt_two,
        List.map_cons, ih, hshift]
      rfl

theorem map_fst_occupied (levels : List (List α)) :
    (occupied levels).map Prod.fst = occupiedLevels (pattern levels) := by
  rw [occupied, map_fst_occupiedFrom]
  simp

/-- A level that is not occupied holds nothing. -/
theorem flatten_occupiedFrom (i : ℕ) (levels : List (List α)) :
    ((occupiedFrom i levels).map Prod.snd).flatten = levels.flatten := by
  induction levels generalizing i with
  | nil => rfl
  | cons level levels ih =>
    rw [occupiedFrom, List.flatten_cons]
    split
    · rename_i hempty
      rw [ih, List.isEmpty_iff.mp hempty, List.nil_append]
    · rw [List.map_cons, List.flatten_cons, ih]

/-! ### The weight of levels -/

/-- The sum of `f` over the levels, each with the weight of its items. -/
def weigh (f : List α → ℕ) : List (List α) → ℕ
  | [] => 0
  | level :: levels => 2 * (f level + weigh f levels)

theorem sum_occupiedFrom {f : List α → ℕ} (hf : f [] = 0) (i : ℕ) (levels : List (List α)) :
    ((occupiedFrom i levels).map fun b => levelWeight b.1 * f b.2).sum
      = 2 ^ i * weigh f levels := by
  induction levels generalizing i with
  | nil => rfl
  | cons level levels ih =>
    have hpow : 2 ^ (i + 1) * weigh f levels + levelWeight i * f level
        = 2 ^ i * weigh f (level :: levels) := by
      rw [levelWeight_eq, weigh]
      ring
    rw [occupiedFrom]
    split
    · rename_i hempty
      rw [List.isEmpty_iff.mp hempty, hf, Nat.mul_zero, Nat.add_zero] at hpow
      rw [ih, List.isEmpty_iff.mp hempty, hpow]
    · rw [List.map_cons, List.sum_cons, ih, Nat.add_comm, hpow]

theorem sum_occupied {f : List α → ℕ} (hf : f [] = 0) (levels : List (List α)) :
    ((occupied levels).map fun b => levelWeight b.1 * f b.2).sum = weigh f levels := by
  rw [occupied, sum_occupiedFrom hf, Nat.pow_zero, Nat.one_mul]

/-! ### How many items levels hold -/

/-- Levels hold `k` items where the pattern has a bit, and else none. -/
def Holds (k p : ℕ) (levels : List (List α)) : Prop :=
  ∀ i, (levels[i]?.map List.length).getD 0 = if p.testBit i then k else 0

theorem Holds.eq_zero {p : ℕ} (hk : 0 < k) (h : Holds k p ([] : List (List α))) : p = 0 := by
  refine Nat.eq_of_testBit_eq fun i => ?_
  have hi := h i
  rw [Nat.zero_testBit]
  cases hbit : p.testBit i with
  | false => rfl
  | true =>
    rw [hbit, if_pos rfl] at hi
    exact absurd hi (Nat.ne_of_lt hk)

theorem Holds.of_cons {p : ℕ} {level : List α} {levels : List (List α)}
    (h : Holds k p (level :: levels)) :
    level.length = p % 2 * k ∧ Holds k (p / 2) levels := by
  refine ⟨?_, fun i => ?_⟩
  · have hfirst := h 0
    rw [Nat.testBit_zero] at hfirst
    rcases Nat.mod_two_eq_zero_or_one p with hbit | hbit
    · simpa [hbit] using hfirst
    · simpa [hbit] using hfirst
  · have hi := h (i + 1)
    rwa [List.getElem?_cons_succ, Nat.testBit_succ] at hi

theorem Holds.length_of_mem {p : ℕ} {levels : List (List α)} (h : Holds k p levels)
    {b : ℕ × List α} (hb : b ∈ occupied levels) : b.2.length = k := by
  obtain ⟨hmem, hne⟩ := mem_occupiedFrom hb
  obtain ⟨i, hi⟩ := List.mem_iff_getElem?.mp hmem
  have hlength := h i
  rw [hi] at hlength
  split at hlength
  · exact hlength
  · exact absurd (List.eq_nil_of_length_eq_zero hlength) hne

/-- The pattern is that of the levels. -/
theorem Holds.pattern_eq {p : ℕ} {levels : List (List α)} (hk : 0 < k) (h : Holds k p levels) :
    pattern levels = p := by
  refine Nat.eq_of_testBit_eq fun i => ?_
  have hi : (levels[i]?.getD []).length = if p.testBit i then k else 0 := by
    rw [← h i]
    cases levels[i]? <;> rfl
  rw [testBit_pattern]
  cases hbit : p.testBit i with
  | false =>
    rw [hbit, if_neg (by decide)] at hi
    rw [List.eq_nil_of_length_eq_zero hi]
    rfl
  | true =>
    rw [hbit, if_pos rfl] at hi
    rw [List.isEmpty_eq_false_iff.mpr (List.ne_nil_of_length_pos (hi ▸ hk))]
    rfl

/-- The items of the levels stand for `2 * k` items for each unit of the pattern. -/
theorem Holds.weigh_length {p : ℕ} {levels : List (List α)} (hk : 0 < k) (h : Holds k p levels) :
    weigh List.length levels = 2 * k * p := by
  induction levels generalizing p with
  | nil =>
    rw [h.eq_zero hk]
    rfl
  | cons level levels ih =>
    obtain ⟨hlevel, hrest⟩ := h.of_cons
    have hmod : p % 2 + 2 * (p / 2) = p := Nat.mod_add_div p 2
    calc weigh List.length (level :: levels)
        = 2 * (p % 2 * k + 2 * k * (p / 2)) := by rw [weigh, ih hrest, hlevel]
      _ = 2 * k * (p % 2 + 2 * (p / 2)) := by ring
      _ = 2 * k * p := by rw [hmod]

/-- There are `k` items for each bit of the pattern. -/
theorem Holds.length_flatten {p : ℕ} {levels : List (List α)} (hk : 0 < k) (h : Holds k p levels) :
    levels.flatten.length = (occupiedLevels p).length * k := by
  induction levels generalizing p with
  | nil =>
    rw [h.eq_zero hk]
    simp [occupiedLevels, levelCount]
  | cons level levels ih =>
    obtain ⟨hlevel, hrest⟩ := h.of_cons
    have hbits : occupiedLevels p = (if p % 2 = 1 then [0] else [])
        ++ (occupiedLevels (p / 2)).map (· + 1) := by
      rw [← occupiedLevels_bit (Nat.mod_lt p Nat.two_pos), Nat.mod_add_div]
    have hfirst : (if p % 2 = 1 then [0] else []).length = p % 2 := by
      rcases Nat.mod_two_eq_zero_or_one p with hbit | hbit <;> simp [hbit]
    rw [List.flatten_cons, List.length_append, ih hrest, hlevel, hbits, List.length_append,
      List.length_map, Nat.add_mul, hfirst]

/-! ### Regular levels -/

/-- Each level is free or holds `k` items in order, and the highest level is
occupied. -/
structure Regular (cmp : α → α → Ordering) (k : ℕ) (levels : List (List α)) : Prop where
  block : ∀ level ∈ levels, level ≠ [] → level.length = k ∧ Sorted cmp level
  top : levels.getLast? ≠ some []

theorem regular_nil : Regular cmp k ([] : List (List α)) :=
  ⟨by simp, by simp⟩

theorem regular_cons {level : List α} {levels : List (List α)} :
    Regular cmp k (level :: levels) ↔
      (level ≠ [] → level.length = k ∧ Sorted cmp level) ∧ (levels = [] → level ≠ [])
        ∧ Regular cmp k levels := by
  constructor
  · rintro ⟨hblock, htop⟩
    refine ⟨hblock level List.mem_cons_self, ?_, ?_, ?_⟩
    · rintro rfl rfl
      exact htop rfl
    · exact fun l hl => hblock l (List.mem_cons_of_mem _ hl)
    · intro hlast
      rw [List.getLast?_cons, hlast] at htop
      exact htop rfl
  · rintro ⟨hlevel, htop, hrest⟩
    -- The highest level is that of `levels`, or `level` if there are no others.
    refine ⟨?_, ?_⟩
    · intro l hl
      rcases List.mem_cons.mp hl with rfl | hl
      · exact hlevel
      · exact hrest.block l hl
    · rw [List.getLast?_cons]
      intro hlast
      rcases hl : levels.getLast? with _ | l
      · rw [hl] at hlast
        exact htop (List.getLast?_eq_none_iff.mp hl) (Option.some_inj.mp hlast)
      · rw [hl] at hlast
        exact hrest.top (hl.trans hlast)

theorem Regular.pattern_ne_zero {levels : List (List α)} (h : Regular cmp k levels)
    (hne : levels ≠ []) : pattern levels ≠ 0 := by
  induction levels with
  | nil => exact absurd rfl hne
  | cons level levels ih =>
    obtain ⟨-, htop, hrest⟩ := regular_cons.mp h
    rcases eq_or_ne levels [] with hnil | hcons
    · rw [pattern_occupied (htop hnil)]
      omega
    · have := ih hrest hcons
      obtain ⟨b, -, hb⟩ := pattern_cons level levels
      omega

/-- Regular levels are as many as their pattern spans. -/
theorem Regular.levelCount_pattern {levels : List (List α)} (h : Regular cmp k levels) :
    levelCount (pattern levels) = levels.length := by
  induction levels with
  | nil => rfl
  | cons level levels ih =>
    obtain ⟨-, -, hrest⟩ := regular_cons.mp h
    have hne := h.pattern_ne_zero (List.cons_ne_nil level levels)
    obtain ⟨b, hb, hpattern⟩ := pattern_cons level levels
    rw [hpattern] at hne ⊢
    rw [levelCount_bit hb hne, ih hrest, List.length_cons]

theorem Regular.occupied {levels : List (List α)} (h : Regular cmp k levels) {b : ℕ × List α}
    (hb : b ∈ occupied levels) : b.2.length = k ∧ Sorted cmp b.2 :=
  h.block b.2 (mem_occupiedFrom hb).1 (mem_occupiedFrom hb).2

theorem Regular.holds {levels : List (List α)} (h : Regular cmp k levels) :
    Holds k (pattern levels) levels := by
  intro i
  rw [testBit_pattern]
  rcases hlevel : levels[i]? with _ | level
  · rfl
  · rcases eq_or_ne level [] with rfl | hne
    · rfl
    · rw [Option.getD_some, List.isEmpty_eq_false_iff.mpr hne]
      exact (h.block level (List.mem_of_getElem? hlevel) hne).1

/-! ### Levels laid out by a pattern -/

/-- A level holds `k` items in order if it is to be occupied, and else nothing. -/
def Fits (cmp : α → α → Ordering) (k : ℕ) (occupied : Bool) (level : List α) : Prop :=
  if occupied then level.length = k ∧ Sorted cmp level else level = []

/-- The levels are those that the bits of a pattern call for. -/
structure LaidOut (cmp : α → α → Ordering) (k p : ℕ) (levels : List (List α)) : Prop where
  length : levels.length = levelCount p
  fits : ∀ i level, levels[i]? = some level → Fits cmp k (p.testBit i) level

theorem Fits.isEmpty {occupied : Bool} {level : List α} (hk : 0 < k)
    (h : Fits cmp k occupied level) : level.isEmpty = !occupied := by
  cases occupied with
  | true => exact List.isEmpty_eq_false_iff.mpr (List.ne_nil_of_length_pos (h.1 ▸ hk))
  | false => exact List.isEmpty_iff.mpr h

theorem LaidOut.holds {p : ℕ} {levels : List (List α)} (h : LaidOut cmp k p levels) :
    Holds k p levels := by
  intro i
  rcases hlevel : levels[i]? with _ | level
  · rw [if_neg]
    · rfl
    · intro hbit
      have hlt := lt_levelCount_of_testBit hbit
      have hle := List.getElem?_eq_none_iff.mp hlevel
      rw [h.length] at hle
      omega
  · have hfits := h.fits i level hlevel
    cases hbit : p.testBit i with
    | true => exact (hbit ▸ hfits :).1
    | false => exact congrArg List.length (hbit ▸ hfits :)

theorem LaidOut.regular {p : ℕ} {levels : List (List α)} (hk : 0 < k)
    (h : LaidOut cmp k p levels) : Regular cmp k levels := by
  refine ⟨?_, ?_⟩
  · intro level hlevel hne
    obtain ⟨i, hi⟩ := List.mem_iff_getElem?.mp hlevel
    have hfits := h.fits i level hi
    cases hbit : p.testBit i with
    | true => exact (hbit ▸ hfits :)
    | false => exact absurd (hbit ▸ hfits :) hne
  · intro hlast
    rw [List.getLast?_eq_getElem?] at hlast
    by_cases hp : p = 0
    · have hlen := h.length
      rw [levelCount, if_pos hp] at hlen
      rw [List.length_eq_zero_iff.mp hlen] at hlast
      simp at hlast
    · -- The highest level is that of the highest bit, which is set.
      rw [h.length, levelCount, if_neg hp, Nat.add_sub_cancel] at hlast
      have hempty := (h.fits _ _ hlast).isEmpty hk
      rw [Nat.testBit_log2 hp] at hempty
      simp at hempty

theorem LaidOut.cons {b p : ℕ} (hb : b < 2) (hne : b + 2 * p ≠ 0) {level : List α}
    {levels : List (List α)} (hlevel : Fits cmp k (decide (b = 1)) level)
    (h : LaidOut cmp k p levels) : LaidOut cmp k (b + 2 * p) (level :: levels) := by
  refine ⟨by rw [List.length_cons, h.length, levelCount_bit hb hne], fun i l hl => ?_⟩
  cases i with
  | zero =>
    obtain rfl := Option.some.inj hl
    rwa [testBit_bit_zero hb]
  | succ i =>
    rw [testBit_bit_succ hb]
    exact h.fits i l hl

/-- Blocks for the occupied levels of a pattern are put into levels by free ones between
them. -/
theorem exists_laidOut {p : ℕ} {blocks : List (List α)}
    (hcount : blocks.length = (occupiedLevels p).length)
    (hblocks : ∀ block ∈ blocks, block.length = k ∧ Sorted cmp block) :
    ∃ levels, LaidOut cmp k p levels ∧ levels.flatten = blocks.flatten := by
  induction p using bit_induction generalizing blocks with
  | zero =>
    obtain rfl := List.eq_nil_of_length_eq_zero hcount
    exact ⟨[], ⟨rfl, by simp⟩, rfl⟩
  | bit b p hb ih =>
    by_cases hzero : b + 2 * p = 0
    · obtain ⟨rfl, rfl⟩ : b = 0 ∧ p = 0 := by omega
      exact ih hcount hblocks
    · rw [occupiedLevels_bit hb, List.length_append, List.length_map] at hcount
      by_cases hone : b = 1
      · rw [if_pos hone, List.length_singleton, Nat.add_comm] at hcount
        obtain ⟨block, blocks, rfl⟩ := List.exists_cons_of_length_eq_add_one hcount
        obtain ⟨hblock, hrest⟩ := List.forall_mem_cons.mp hblocks
        obtain ⟨levels, hlevels, hflatten⟩ := ih (by simpa using hcount) hrest
        refine ⟨block :: levels, hlevels.cons hb hzero ?_, by simp [hflatten]⟩
        rw [decide_eq_true hone]
        exact hblock
      · rw [if_neg hone, List.length_nil, Nat.zero_add] at hcount
        obtain ⟨levels, hlevels, hflatten⟩ := ih hcount hblocks
        refine ⟨[] :: levels, hlevels.cons hb hzero ?_, by simp [hflatten]⟩
        rw [decide_eq_false hone]
        rfl

theorem Regular.laidOut {levels : List (List α)} (h : Regular cmp k levels) :
    LaidOut cmp k (pattern levels) levels := by
  refine ⟨h.levelCount_pattern.symm, fun i level hlevel => ?_⟩
  rw [testBit_pattern, hlevel, Option.getD_some]
  rcases eq_or_ne level [] with rfl | hne
  · exact rfl
  · rw [List.isEmpty_eq_false_iff.mpr hne]
    exact h.block level (List.mem_of_getElem? hlevel) hne

end QuantileSketch.Levels
