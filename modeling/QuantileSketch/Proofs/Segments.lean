/-
Each level summarises a stretch of the stream of its own.

A sketch that only sees updates passes groups of `2k` items on to its levels, in order of
arrival.  A block is merged only with blocks of the groups right before its own, so what a
level holds comes from groups in a row, and a higher level's groups are earlier ones:

* `Levels.Covers` — levels account for a row of items, stretch by stretch, which a carry
  extends by the stretch of its block (`Carried.covers`);
* `segment` — the stretch of the stream that falls to a level, by its positions;
* `Covers.exists_level`, `Covers.flatMap_segment` — stretch by stretch is position by
  position;
* `Sketch.levels_summarise_segments` — the levels of a sketch after updates, and its buffer.

Design notes: the groups that a level stands for double from level to level, so `Covers`
carries the length of a stretch along as it goes up.  The comparison plays no part: neither
where a block goes nor which blocks it meets depends on the order of the items.
-/
import QuantileSketch.Proofs.Retained

open QuantileSketch.Randomized

namespace QuantileSketch

variable {α : Type} {cmp : α → α → Ordering} {k : ℕ}

/-! ### Stretches by their positions -/

/-- The groups that come before those of level `i`: the bits of the pattern above `i`. -/
def segmentStart (p i : ℕ) : ℕ := (p >>> (i + 1)) <<< (i + 1)

/-- The items at the positions that fall to level `i`, with `w` of them to a group. -/
def segment (w p i : ℕ) (xs : List α) : List α :=
  (xs.drop (w * segmentStart p i)).take (w * 2 ^ i)

theorem segmentStart_eq (p i : ℕ) : segmentStart p i = p / 2 ^ (i + 1) * 2 ^ (i + 1) := by
  rw [segmentStart, Nat.shiftLeft_eq, Nat.shiftRight_eq_div_pow]

theorem segmentStart_zero {b p : ℕ} (hb : b < 2) : segmentStart (b + 2 * p) 0 = 2 * p := by
  rw [segmentStart_eq, bit_div_two_pow hb, Nat.pow_zero, Nat.div_one, Nat.zero_add, Nat.pow_one,
    Nat.mul_comm]

theorem segmentStart_succ {b p : ℕ} (hb : b < 2) (i : ℕ) :
    segmentStart (b + 2 * p) (i + 1) = 2 * segmentStart p i := by
  rw [segmentStart_eq, segmentStart_eq, bit_div_two_pow hb, Nat.pow_succ' (n := i + 1),
    Nat.mul_left_comm]

/-- The groups of an occupied level are there. -/
theorem segmentStart_add_le {p i : ℕ} (h : p.testBit i = true) :
    segmentStart p i + 2 ^ i ≤ p := by
  have hlow : 2 ^ i ≤ p % 2 ^ (i + 1) := by
    refine Nat.ge_two_pow_of_testBit ?_
    rw [Nat.testBit_mod_two_pow, h, decide_eq_true (Nat.lt_succ_self i), Bool.and_self]
  have hdiv := Nat.div_add_mod' p (2 ^ (i + 1))
  rw [segmentStart_eq]
  omega

theorem length_segment {w p i : ℕ} {xs : List α} (hlen : xs.length = w * p)
    (h : p.testBit i = true) : (segment w p i xs).length = w * 2 ^ i := by
  have hle := Nat.mul_le_mul_left w (segmentStart_add_le h)
  rw [Nat.mul_add] at hle
  rw [segment, List.length_take, List.length_drop, hlen]
  omega

/-- The stretch of the lowest level comes last. -/
theorem segment_zero {w p : ℕ} {xs ys : List α} (hlen : xs.length = 2 * w * p)
    (hys : ys.length = w) : segment w (1 + 2 * p) 0 (xs ++ ys) = ys := by
  have hstart : w * (2 * p) = xs.length := by
    rw [hlen]
    ring
  rw [segment, segmentStart_zero Nat.one_lt_two, hstart, List.drop_left, Nat.pow_zero, Nat.mul_one,
    ← hys, List.take_length]

/-- At any other level there are as many groups as one level lower with groups of twice the
items. -/
theorem segment_succ {b : ℕ} (hb : b < 2) (w p i : ℕ) (xs : List α) :
    segment w (b + 2 * p) (i + 1) xs = segment (2 * w) p i xs := by
  have hstart : w * (2 * segmentStart p i) = 2 * w * segmentStart p i := by ring
  have hsize : w * 2 ^ (i + 1) = 2 * w * 2 ^ i := by
    rw [Nat.pow_succ']
    ring
  rw [segment, segmentStart_succ hb, hstart, hsize, segment]

/-- What comes after the groups is in no stretch. -/
theorem segment_append {w p i : ℕ} {xs : List α} (hlen : xs.length = w * p)
    (h : p.testBit i = true) (ys : List α) : segment w p i (xs ++ ys) = segment w p i xs := by
  have hle := Nat.mul_le_mul_left w (segmentStart_add_le h)
  rw [Nat.mul_add, ← hlen] at hle
  rw [segment, List.drop_append_of_le_length (by omega), List.take_append_of_le_length, segment]
  rw [List.length_drop]
  omega

namespace Levels

/-! ### Levels that account for a row of items -/

/-- Levels of blocks of `k` items account for a row of items: an occupied level for the last
`w` of them, and the levels above it, with twice as many to each, for those before. -/
inductive Covers (k : ℕ) : (w : ℕ) → (levels : List (List α)) → (xs : List α) → Prop
  /-- No level is there, and no item. -/
  | nil (w : ℕ) : Covers k w [] []
  /-- A free level accounts for nothing. -/
  | free {w : ℕ} {levels : List (List α)} {xs : List α} (h : Covers k (2 * w) levels xs) :
    Covers k w ([] :: levels) xs
  /-- An occupied level has kept some of the last items. -/
  | occupied {w : ℕ} {level : List α} {levels : List (List α)} {xs stretch : List α}
    (hsize : level.length = k) (hlength : stretch.length = w)
    (hle : (level : Multiset α) ≤ stretch) (h : Covers k (2 * w) levels xs) :
    Covers k w (level :: levels) (xs ++ stretch)

/-- A block that is added at the lowest level adds its stretch to the row. -/
theorem Carried.covers {start w : ℕ} {levels out : List (List α)} {block xs stretch : List α}
    (h : Carried cmp start levels block out) (hstart : start = 0) (hk : 0 < k)
    (hlen : block.length = k) (hstretch : stretch.length = w)
    (hle : (block : Multiset α) ≤ stretch) (hlevels : Covers k w levels xs) :
    Covers k w out (xs ++ stretch) := by
  induction h generalizing w xs stretch with
  | grow block =>
    cases hlevels
    exact .occupied hlen hstretch hle (.nil _)
  | settle levels block =>
    cases hlevels with
    | free hrest => exact .occupied hlen hstretch hle hrest
    | occupied hsize => exact absurd hsize (Nat.ne_of_lt hk)
  | @carry resident block levels out offset hne h ih =>
    cases hlevels with
    | free => exact absurd rfl hne
    | @occupied _ _ _ xs earlier hsize hearlier hres hrest =>
      -- The two stretches are next to each other, and the half that goes on is of both.
      have hhalf : (everyNth 2 offset (mergeBy cmp resident block) : Multiset α)
          ≤ (earlier ++ stretch : List α) := by
        rw [← Multiset.coe_add]
        exact (half_mergeBy_le offset resident block).trans (add_le_add hres hle)
      have hboth : (earlier ++ stretch).length = 2 * w := by
        rw [List.length_append, hearlier, hstretch, Nat.two_mul]
      rw [List.append_assoc]
      exact .free (ih rfl (length_half_mergeBy hsize hlen offset) hboth hhalf hrest)
  | pad | skip => cases hstart

theorem Covers.length_eq {w : ℕ} {levels : List (List α)} {xs : List α} (hk : 0 < k)
    (h : Covers k w levels xs) : xs.length = w * pattern levels := by
  induction h with
  | nil w => simp [pattern]
  | free h ih =>
    rw [ih, pattern_free]
    ring
  | @occupied w level levels xs stretch hsize hlength hle h ih =>
    rw [List.length_append, ih, hlength,
      pattern_occupied (List.ne_nil_of_length_pos (hsize ▸ hk))]
    ring

/-- An occupied level has kept `k` of the items at its positions. -/
theorem Covers.exists_level {w i : ℕ} {levels : List (List α)} {xs : List α} (hk : 0 < k)
    (h : Covers k w levels xs) (hi : (pattern levels).testBit i = true) :
    ∃ level, levels[i]? = some level ∧ level.length = k
      ∧ (level : Multiset α) ≤ segment w (pattern levels) i xs := by
  induction h generalizing i with
  | nil w => simp [pattern] at hi
  | @free w levels xs h ih =>
    rw [pattern_free] at hi ⊢
    cases i with
    | zero => simp at hi
    | succ i =>
      rw [testBit_bit_succ Nat.two_pos] at hi
      rw [segment_succ Nat.two_pos]
      exact ih hi
  | @occupied w level levels xs stretch hsize hlength hle h ih =>
    rw [pattern_occupied (List.ne_nil_of_length_pos (hsize ▸ hk))] at hi ⊢
    cases i with
    | zero =>
      refine ⟨level, rfl, hsize, ?_⟩
      rw [segment_zero (h.length_eq hk) hlength]
      exact hle
    | succ i =>
      rw [testBit_bit_succ Nat.one_lt_two] at hi
      rw [segment_succ Nat.one_lt_two, segment_append (h.length_eq hk) hi]
      exact ih hi

/-- From the highest level down, the stretches of the occupied levels are the whole row. -/
theorem Covers.flatMap_segment {w : ℕ} {levels : List (List α)} {xs : List α} (hk : 0 < k)
    (h : Covers k w levels xs) :
    (occupiedLevels (pattern levels)).reverse.flatMap (fun i => segment w (pattern levels) i xs)
      = xs := by
  -- The stretches of the levels above the lowest one lie in what comes before its own.
  have hshift : ∀ {w b p : ℕ} {xs : List α} (ys : List α), b < 2 → xs.length = 2 * w * p →
      ((occupiedLevels p).map (· + 1)).reverse.flatMap
          (fun i => segment w (b + 2 * p) i (xs ++ ys))
        = (occupiedLevels p).reverse.flatMap fun i => segment (2 * w) p i xs := by
    intro w b p xs ys hb hlen
    rw [← List.map_reverse, List.flatMap_map]
    refine List.flatMap_congr fun i hi => ?_
    rw [segment_succ hb, segment_append hlen (mem_occupiedLevels.mp (List.mem_reverse.mp hi))]
  induction h with
  | nil w => rfl
  | @free w levels xs h ih =>
    have hrest := hshift [] Nat.two_pos (h.length_eq hk)
    rw [ih, List.append_nil] at hrest
    rw [pattern_free, occupiedLevels_bit Nat.two_pos, if_neg Nat.zero_ne_one, List.nil_append]
    exact hrest
  | @occupied w level levels xs stretch hsize hlength hle h ih =>
    have hrest := hshift stretch Nat.one_lt_two (h.length_eq hk)
    rw [ih] at hrest
    rw [pattern_occupied (List.ne_nil_of_length_pos (hsize ▸ hk)),
      occupiedLevels_bit Nat.one_lt_two, if_pos rfl, List.reverse_append, List.flatMap_append,
      hrest, List.reverse_singleton, List.flatMap_singleton,
      segment_zero (h.length_eq hk) hlength]

end Levels

namespace Sketch

/-! ### Sketches that only see updates -/

/-- The buffer holds the last items of the stream, and the levels account for those before. -/
structure Accounts (s : Sketch α cmp) (xs : List α) : Prop where
  room : s.buffer.size < 2 * s.k
  settled : ∃ settled, xs = settled ++ s.buffer.toList
    ∧ Levels.Covers s.k (2 * s.k) s.levels settled

theorem Accounts.update {s s' : Sketch α cmp} {xs : List α} {x : α} (h : s.Accounts xs)
    (hs' : s' ∈ s.update x) : s'.Accounts (xs ++ [x]) := by
  obtain ⟨settled, hxs, hcovers⟩ := h.settled
  have hroom := h.room
  have hsize : (s.push x).buffer.size = s.buffer.size + 1 := Array.size_push _
  have hpush : xs ++ [x] = settled ++ (s.push x).buffer.toList := by
    rw [hxs, List.append_assoc, push, Array.toList_push]
  rcases mem_update.mp hs' with ⟨hfull, rfl⟩ | ⟨hfull, hs'⟩
  · refine ⟨?_, settled, hpush, hcovers⟩
    show (s.push x).buffer.size < 2 * s.k
    omega
  · -- The buffer becomes a group, and half of it the block of that group.
    obtain ⟨offset, levels, hlevels, rfl⟩ := mem_compact.mp hs'
    have hk : 0 < s.k := by omega
    have hfull : (s.push x).buffer.size = 2 * (s.push x).k := hsize.trans hfull
    have hle : (everyNth 2 offset (sortBy cmp (s.push x).buffer.toList) : Multiset α)
        ≤ (s.push x).buffer.toList :=
      (everyNth_le _ _ _).trans_eq (sortBy_coe _)
    have hcarried := (Levels.carried_of_mem hlevels).covers rfl hk
      (length_half_buffer hfull offset) ((Array.length_toList ..).trans hfull) hle hcovers
    refine ⟨Nat.mul_pos Nat.two_pos hk, _, ?_, hcarried⟩
    rw [hpush]
    exact (List.append_nil _).symm

theorem accounts_of_mem_updateAll {s : Sketch α cmp} {xs : List α} (hk : 0 < k)
    (hs : s ∈ (empty k).updateAll xs) : s.Accounts xs := by
  refine updateAll_induction (motive := fun ys t => t.Accounts ys) hs ?_ fun h ht' => h.update ht'
  exact ⟨Nat.mul_pos Nat.two_pos hk, [], rfl, .nil _⟩

/-- **Each level summarises its own stretch.**  After updates of a new sketch the buffer holds
the last items of the stream, in order of arrival, and each occupied level `k` of the items at
the positions from `2k * start` up to `2k * (start + 2 ^ i)`, where `start` is the pattern with
its bits up to `i` cleared.  These stretches and the buffer, one after the other, are the
stream. -/
theorem levels_summarise_segments (hk : Admissible k) {xs : List α} {s : Sketch α cmp}
    (hs : s ∈ (empty k).updateAll xs) :
    s.buffer.toList = xs.drop (xs.length - bufferCount k xs.length)
      ∧ s.buffer.size = bufferCount k xs.length
      ∧ (∀ i, (occupancy k xs.length).testBit i = true →
          (segment (2 * k) (occupancy k xs.length) i xs).length = 2 * k * 2 ^ i
            ∧ ∃ level, s.levels[i]? = some level ∧ level.length = k
              ∧ (level : Multiset α) ≤ segment (2 * k) (occupancy k xs.length) i xs)
      ∧ (occupiedLevels (occupancy k xs.length)).reverse.flatMap
          (fun i => segment (2 * k) (occupancy k xs.length) i xs) ++ s.buffer.toList = xs := by
  obtain ⟨hroom, settled, hxs, hcovers⟩ := accounts_of_mem_updateAll hk.pos hs
  have hsize : s.k = k := size_of_mem_updateAll hs
  rw [hsize] at hroom hcovers
  have hsettled : settled.length = 2 * k * Levels.pattern s.levels := hcovers.length_eq hk.pos
  have hn : xs.length = s.buffer.size + 2 * k * Levels.pattern s.levels := by
    rw [hxs, List.length_append, hsettled, Array.length_toList, Nat.add_comm]
  have hcount : bufferCount k xs.length = s.buffer.size := by
    rw [bufferCount, hn, Nat.add_mul_mod_self_left, Nat.mod_eq_of_lt hroom]
  have hpattern : occupancy k xs.length = Levels.pattern s.levels := by
    rw [occupancy, hn, Nat.add_mul_div_left _ _ (Nat.zero_lt_of_lt hroom), Nat.div_eq_of_lt hroom,
      Nat.zero_add]
  -- No stretch reaches into the buffer.
  have hsegment : ∀ i, (Levels.pattern s.levels).testBit i = true →
      segment (2 * k) (Levels.pattern s.levels) i xs
        = segment (2 * k) (Levels.pattern s.levels) i settled := by
    intro i hi
    rw [hxs, segment_append hsettled hi]
  rw [hpattern, hcount]
  refine ⟨?_, rfl, fun i hi => ?_, ?_⟩
  · have hstart : xs.length - s.buffer.size = settled.length := by omega
    rw [hstart, hxs, List.drop_left]
  · rw [hsegment i hi]
    exact ⟨length_segment hsettled hi, hcovers.exists_level hk.pos hi⟩
  · rw [List.flatMap_congr fun i hi =>
      hsegment i (mem_occupiedLevels.mp (List.mem_reverse.mp hi)), hcovers.flatMap_segment hk.pos]
    exact hxs.symm

/-- Of thirteen items, the first eight are left to level `1`, the next four to level `0`, and
the last one is in the buffer. -/
theorem levels_summarise_segments_ofThirteen :
    Admissible 2 ∧ ∃ s : Sketch ℕ compare, s ∈ (empty 2).updateAll (List.range 13)
      ∧ s.buffer.toList = [12]
      ∧ (∃ low : List ℕ, s.levels[0]? = some low ∧ low.length = 2
          ∧ (low : Multiset ℕ) ≤ [8, 9, 10, 11])
      ∧ ∃ high : List ℕ, s.levels[1]? = some high ∧ high.length = 2
          ∧ (high : Multiset ℕ) ≤ [0, 1, 2, 3, 4, 5, 6, 7] := by
  have hk : Admissible 2 := by decide
  have hmem := run_value_mem ((empty 2 : Sketch ℕ compare).updateAll (List.range 13))
    (XorShift.ofSeed 1)
  obtain ⟨hbuffer, -, hlevels, -⟩ := levels_summarise_segments hk hmem
  obtain ⟨-, hlow⟩ := hlevels 0 (by decide)
  obtain ⟨-, hhigh⟩ := hlevels 1 (by decide)
  exact ⟨hk, _, hmem, hbuffer, hlow, hhigh⟩

end Sketch

end QuantileSketch
