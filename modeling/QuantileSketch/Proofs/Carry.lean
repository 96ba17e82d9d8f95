/-
Carrying a block up the levels.

Adding a block keeps levels regular, and is the addition of a bit to a binary number:

* `Carried` — what adding a block can lead to, one rule for each way it can go on
  (`carried_of_mem`);
* `Carried.regular`, `Carried.pattern_add` — regular levels stay regular, and the
  pattern of levels grows by `2 ^ start`;
* `Carried.drift` — how far the weight of the items with an initial property can
  move is paid for by the growth of `errorBound`;
* `averages_carryAt` — on average over the draws that weight does not move at all.

Design notes: `weigh` doubles from level to level, as patterns do, so each of these
statements is one induction along the carry.
-/
import QuantileSketch.Proofs.Answers
import QuantileSketch.Proofs.Levels
import QuantileSketch.Proofs.Selection
import Mathlib.Tactic.Linarith

open scoped BigOperators
open QuantileSketch.Randomized

namespace QuantileSketch

variable {α : Type} {cmp : α → α → Ordering} {k : ℕ}

/-! ### Halving a block -/

theorem mem_halve {block half : List α} :
    half ∈ halve block ↔ ∃ offset : Fin 2, half = everyNth 2 offset block := Iff.rfl

theorem averages_halve (P : α → Bool) (block : List α) :
    (halve block).Averages [.bit] (fun half => 2 * half.countP P) (block.countP P) where
  asks := asks_draw fun _ => rfl
  total_eq := by
    have hsum := sum_countP_everyNth Nat.two_pos P block
    rw [ways_cons, ways_nil, Nat.mul_one, ← hsum, Finset.mul_sum]
    rfl

namespace Levels

/-! ### Adding a block -/

/-- What adding a block at a level can lead to. -/
inductive Carried (cmp : α → α → Ordering) :
    (start : ℕ) → (levels : List (List α)) → (block : List α) → (out : List (List α)) → Prop
  /-- The block becomes a new level. -/
  | grow (block : List α) : Carried cmp 0 [] block [block]
  /-- The block finds a free level. -/
  | settle (levels : List (List α)) (block : List α) :
    Carried cmp 0 ([] :: levels) block (block :: levels)
  /-- The block finds an occupied level, and half of what is there goes on. -/
  | carry {resident block : List α} {levels out : List (List α)} (offset : Fin 2)
    (hne : resident ≠ [])
    (h : Carried cmp 0 levels (everyNth 2 offset (mergeBy cmp resident block)) out) :
    Carried cmp 0 (resident :: levels) block ([] :: out)
  /-- A level below the block is missing. -/
  | pad {start : ℕ} {block : List α} {out : List (List α)} (h : Carried cmp start [] block out) :
    Carried cmp (start + 1) [] block ([] :: out)
  /-- A level below the block stays as it is. -/
  | skip {start : ℕ} {block : List α} {levels out : List (List α)} (level : List α)
    (h : Carried cmp start levels block out) :
    Carried cmp (start + 1) (level :: levels) block (level :: out)

theorem carried_of_mem_carry {levels out : List (List α)} {block : List α}
    (h : out ∈ carry cmp levels block) : Carried cmp 0 levels block out := by
  induction levels generalizing block out with
  | nil =>
    rw [carry, mem_done] at h
    subst h
    exact .grow block
  | cons resident levels ih =>
    rw [carry] at h
    split at h
    · rename_i hempty
      rw [mem_done] at h
      rw [List.isEmpty_iff.mp hempty, h]
      exact .settle levels block
    · rename_i hne
      simp only [mem_bind, mem_halve, mem_done] at h
      obtain ⟨half, ⟨offset, rfl⟩, rest, hrest, rfl⟩ := h
      exact .carry offset (by simpa using hne) (ih hrest)

theorem carried_of_mem {start : ℕ} {levels out : List (List α)} {block : List α}
    (h : out ∈ carryAt cmp start levels block) : Carried cmp start levels block out := by
  induction start generalizing levels out with
  | zero => exact carried_of_mem_carry h
  | succ start ih =>
    cases levels with
    | nil =>
      simp only [carryAt, mem_bind, mem_done] at h
      obtain ⟨rest, hrest, rfl⟩ := h
      exact .pad (ih hrest)
    | cons level levels =>
      simp only [carryAt, mem_bind, mem_done] at h
      obtain ⟨rest, hrest, rfl⟩ := h
      exact .skip level (ih hrest)

theorem Carried.ne_nil {start : ℕ} {levels out : List (List α)} {block : List α}
    (h : Carried cmp start levels block out) : out ≠ [] := by
  cases h <;> exact List.cons_ne_nil _ _

/-- Half of two blocks of `k` items is a block of `k` items. -/
theorem length_half_mergeBy {resident block : List α} (hr : resident.length = k)
    (hb : block.length = k) (offset : Fin 2) :
    (everyNth 2 offset (mergeBy cmp resident block)).length = k := by
  refine length_everyNth_of_eq_mul offset.isLt ?_
  rw [length_mergeBy, hr, hb, Nat.two_mul]

theorem Carried.regular [Std.TransCmp cmp] {start : ℕ} {levels out : List (List α)}
    {block : List α} (h : Carried cmp start levels block out) (hk : 0 < k)
    (hlen : block.length = k) (hblock : Sorted cmp block) (hlevels : Regular cmp k levels) :
    Regular cmp k out := by
  -- The level that is passed or padded is not the highest one, so it may be free.
  induction h with
  | grow block =>
    have hne : block ≠ [] := List.ne_nil_of_length_pos (hlen ▸ hk)
    exact regular_cons.mpr ⟨fun _ => ⟨hlen, hblock⟩, fun _ => hne, regular_nil⟩
  | settle levels block =>
    have hne : block ≠ [] := List.ne_nil_of_length_pos (hlen ▸ hk)
    obtain ⟨-, -, hrest⟩ := regular_cons.mp hlevels
    exact regular_cons.mpr ⟨fun _ => ⟨hlen, hblock⟩, fun _ => hne, hrest⟩
  | carry offset hne h ih =>
    obtain ⟨hresident, -, hrest⟩ := regular_cons.mp hlevels
    obtain ⟨hlen', hsorted'⟩ := hresident hne
    have hout := ih (length_half_mergeBy hlen' hlen offset)
      ((hsorted'.mergeBy hblock).everyNth 2 offset) hrest
    exact regular_cons.mpr ⟨fun h => absurd rfl h, fun hnil => absurd hnil h.ne_nil, hout⟩
  | pad h ih =>
    have hout := ih hlen hblock regular_nil
    exact regular_cons.mpr ⟨fun h => absurd rfl h, fun hnil => absurd hnil h.ne_nil, hout⟩
  | skip level h ih =>
    obtain ⟨hlevel, -, hrest⟩ := regular_cons.mp hlevels
    have hout := ih hlen hblock hrest
    exact regular_cons.mpr ⟨hlevel, fun hnil => absurd hnil h.ne_nil, hout⟩

/-- Adding a block adds the bit of its level to the pattern. -/
theorem Carried.pattern_add {start : ℕ} {levels out : List (List α)} {block : List α}
    (h : Carried cmp start levels block out) (hk : 0 < k) (hlen : block.length = k)
    (hlevels : ∀ level ∈ levels, level ≠ [] → level.length = k) :
    pattern out = pattern levels + 2 ^ start := by
  induction h with
  | grow block => rw [pattern_occupied (List.ne_nil_of_length_pos (hlen ▸ hk))]; rfl
  | settle levels block =>
    rw [pattern_occupied (List.ne_nil_of_length_pos (hlen ▸ hk)), pattern_free]
    omega
  | carry offset hne h ih =>
    -- `1 + 2 * p` and one more is `2 * (p + 1)`, as in adding with a carry.
    obtain ⟨hresident, hrest⟩ := List.forall_mem_cons.mp hlevels
    rw [pattern_free, pattern_occupied hne,
      ih (length_half_mergeBy (hresident hne) hlen offset) hrest]
    omega
  | pad h ih =>
    rw [pattern_free, ih hlen (by simp), Nat.pow_succ']
    simp [pattern]
  | skip level h ih =>
    rw [pattern, ih hlen (List.forall_mem_cons.mp hlevels).2, pattern, Nat.pow_succ']
    omega

theorem Carried.pattern_eq [Std.TransCmp cmp] {start : ℕ} {levels out : List (List α)}
    {block : List α} (h : Carried cmp start levels block out) (hk : 0 < k)
    (hlen : block.length = k) (hlevels : Regular cmp k levels) :
    pattern out = pattern levels + 2 ^ start :=
  h.pattern_add hk hlen fun level hlevel hne => (hlevels.block level hlevel hne).1

/-- The halves of a sorted list, each item standing for two, are off by at most one
item with an initial property. -/
theorem abs_two_mul_countP_half_sub_le {P : α → Bool} (hP : IsInitial cmp P) {xs : List α}
    (h : Sorted cmp xs) (offset : Fin 2) :
    |(2 * (everyNth 2 offset xs).countP P : ℤ) - xs.countP P| ≤ 1 := by
  have hkept := abs_stride_mul_kept_sub_le offset.isLt (xs.countP P)
  rw [← countP_everyNth hP 2 offset h] at hkept
  simpa using hkept

/-! ### The drift of a carry -/

theorem countP_mergeBy (P : α → Bool) (xs ys : List α) :
    (mergeBy cmp xs ys).countP P = xs.countP P + ys.countP P := by
  rw [(mergeBy_perm cmp xs ys).countP_eq, List.countP_append]

/-- What is paid for at some level is paid for twice at the next one. -/
theorem errorBound_shift {b p start : ℕ} (hb : b < 2) {d : ℤ}
    (h : |d| + errorBound p + (start + 1) * 2 ^ start ≤ errorBound (p + 2 ^ start)) :
    |2 * d| + errorBound (b + 2 * p) + (start + 1 + 1) * 2 ^ (start + 1)
      ≤ errorBound (b + 2 * (p + 2 ^ start)) := by
  rw [abs_mul, abs_two, errorBound_bit hb, errorBound_bit hb]
  push_cast [pow_succ] at h ⊢
  linarith

/-- Two blocks at the lowest level pay for one at the next level and for the item by
which halving them is off. -/
theorem errorBound_carry {p : ℕ} {d m : ℤ} (hm : |m| ≤ 1)
    (h : |d| + errorBound p + 1 ≤ errorBound (p + 1)) :
    |2 * d + 2 * m| + errorBound (1 + 2 * p) + 1 ≤ errorBound (0 + 2 * (p + 1)) := by
  have hsum := abs_add_le (2 * d) (2 * m)
  rw [abs_mul, abs_mul, abs_two] at hsum
  rw [errorBound_bit Nat.one_lt_two, errorBound_bit Nat.two_pos]
  push_cast at h ⊢
  linarith

/-- How far adding a block moves the weight of the items with an initial property is
paid for by the error that the pattern accounts for. -/
theorem Carried.drift [Std.TransCmp cmp] {P : α → Bool} (hP : IsInitial cmp P) {start : ℕ}
    {levels out : List (List α)} {block : List α} (h : Carried cmp start levels block out)
    (hk : 0 < k) (hlen : block.length = k) (hblock : Sorted cmp block)
    (hlevels : Regular cmp k levels) :
    |(weigh (List.countP P) out : ℤ) - weigh (List.countP P) levels
        - 2 ^ (start + 1) * block.countP P|
      + errorBound (pattern levels) + (start + 1) * 2 ^ start ≤ errorBound (pattern out) := by
  have hne : ∀ {b : List α}, b.length = k → b ≠ [] := fun hb =>
    List.ne_nil_of_length_pos (hb ▸ hk)
  induction h with
  | grow block =>
    rw [pattern_occupied (hne hlen), errorBound_bit Nat.one_lt_two]
    simp [weigh, pattern]
  | settle levels block =>
    -- No item moves, and the block accounts for one item.
    rw [pattern_occupied (hne hlen), pattern_free, errorBound_bit Nat.one_lt_two,
      errorBound_bit Nat.two_pos]
    simp only [weigh, List.countP_nil]
    push_cast
    ring_nf
    simp
  | @carry resident block levels out offset hres h ih =>
    obtain ⟨hresident, -, hrest⟩ := regular_cons.mp hlevels
    obtain ⟨hlen', hsorted'⟩ := hresident hres
    have hhalf : (everyNth 2 offset (mergeBy cmp resident block)).length = k :=
      length_half_mergeBy hlen' hlen offset
    have hmerged := hsorted'.mergeBy hblock
    have hmove := abs_two_mul_countP_half_sub_le hP hmerged offset
    have hrec := ih hhalf (hmerged.everyNth 2 offset) hrest
    set half := everyNth 2 offset (mergeBy cmp resident block)
    -- The move is that of the half above, and that of halving, which counts twice.
    have hsplit : (weigh (List.countP P) ([] :: out) : ℤ)
          - weigh (List.countP P) (resident :: levels) - 2 ^ (0 + 1) * block.countP P
        = 2 * (weigh (List.countP P) out - weigh (List.countP P) levels
            - 2 ^ (0 + 1) * half.countP P)
          + 2 * (2 * half.countP P - (mergeBy cmp resident block).countP P) := by
      simp only [weigh, List.countP_nil, countP_mergeBy]
      push_cast
      ring
    have hpattern : pattern out = pattern levels + 1 := h.pattern_eq hk hhalf hrest
    rw [hpattern] at hrec
    rw [hsplit, pattern_occupied hres, pattern_free, hpattern]
    simpa using errorBound_carry hmove (by simpa using hrec)
  | @pad start block out h ih =>
    have hrec := ih hlen hblock regular_nil
    have hdouble : (weigh (List.countP P) ([] :: out) : ℤ) - weigh (List.countP P) []
          - 2 ^ (start + 1 + 1) * block.countP P
        = 2 * (weigh (List.countP P) out - weigh (List.countP P) []
            - 2 ^ (start + 1) * block.countP P) := by
      simp only [weigh, List.countP_nil]
      push_cast
      ring
    rw [h.pattern_eq hk hlen regular_nil] at hrec
    rw [hdouble, pattern_free, h.pattern_eq hk hlen regular_nil]
    exact_mod_cast errorBound_shift Nat.two_pos hrec
  | @skip start block levels out level h ih =>
    have hrest := (regular_cons.mp hlevels).2.2
    have hrec := ih hlen hblock hrest
    have hdouble : (weigh (List.countP P) (level :: out) : ℤ)
          - weigh (List.countP P) (level :: levels) - 2 ^ (start + 1 + 1) * block.countP P
        = 2 * (weigh (List.countP P) out - weigh (List.countP P) levels
            - 2 ^ (start + 1) * block.countP P) := by
      simp only [weigh]
      push_cast
      ring
    have hbit : (if level.isEmpty then 0 else 1) < 2 := by split <;> decide
    rw [h.pattern_eq hk hlen hrest] at hrec
    rw [hdouble, pattern, pattern, h.pattern_eq hk hlen hrest]
    exact_mod_cast errorBound_shift hbit hrec

/-! ### The average of a carry -/

/-- The draws of adding a block at level `start` to levels of a pattern. -/
def carryDraws (p start : ℕ) : List Draw := List.replicate (carryLength (p / 2 ^ start)) .bit

theorem carryDraws_bit {b p : ℕ} (hb : b < 2) (start : ℕ) :
    carryDraws (b + 2 * p) (start + 1) = carryDraws p start := by
  rw [carryDraws, bit_div_two_pow hb, carryDraws]

theorem averages_carry (P : α → Bool) (levels : List (List α)) (block : List α) :
    (carry cmp levels block).Averages (List.replicate (carryLength (pattern levels)) .bit)
      (weigh (List.countP P)) (weigh (List.countP P) levels + 2 * block.countP P) := by
  induction levels generalizing block with
  | nil =>
    have hnone : carryLength (pattern ([] : List (List α))) = 0 := by simp [carryLength, pattern]
    have hblock : weigh (List.countP P) [block] = 2 * block.countP P := by simp [weigh]
    rw [hnone, weigh, Nat.zero_add, ← hblock]
    exact averages_done _ _
  | cons resident levels ih =>
    rcases eq_or_ne resident [] with rfl | hne
    · have hnone : carryLength (pattern ([] :: levels)) = 0 := by
        rw [pattern_free, carryLength_bit Nat.two_pos, if_neg Nat.zero_ne_one]
      have hblock : weigh (List.countP P) ([] :: levels) + 2 * block.countP P
          = weigh (List.countP P) (block :: levels) := by
        simp only [weigh, List.countP_nil]
        ring
      rw [hnone, hblock]
      exact averages_done _ _
    · -- One bit for the halves, each of which is carried on by fair draws.
      have hone : carryLength (pattern (resident :: levels))
          = 1 + carryLength (pattern levels) := by
        rw [pattern_occupied hne, carryLength_bit Nat.one_lt_two, if_pos rfl, Nat.add_comm]
      have hfirst := (averages_halve P (mergeBy cmp resident block)).affine
        (2 * weigh (List.countP P) levels) 2
      have hvalue : 2 * weigh (List.countP P) levels + 2 * (mergeBy cmp resident block).countP P
          = weigh (List.countP P) (resident :: levels) + 2 * block.countP P := by
        rw [countP_mergeBy, weigh]
        ring
      rw [hvalue] at hfirst
      rw [carry, if_neg (by simpa using hne), hone, List.replicate_add]
      refine hfirst.bind fun half _ => Averages.map ?_
      have hrest := (ih half).affine 0 2
      simp only [weigh, List.countP_nil, Nat.zero_add] at hrest ⊢
      rwa [Nat.mul_add] at hrest

/-- On average, adding a block adds the weight that its items have at its level. -/
theorem averages_carryAt (P : α → Bool) (start : ℕ) (levels : List (List α))
    (block : List α) :
    (carryAt cmp start levels block).Averages (carryDraws (pattern levels) start)
      (weigh (List.countP P))
      (weigh (List.countP P) levels + levelWeight start * block.countP P) := by
  induction start generalizing levels with
  | zero =>
    rw [carryDraws, Nat.pow_zero, Nat.div_one]
    exact averages_carry P levels block
  | succ start ih =>
    cases levels with
    | nil =>
      have hrest := (ih []).affine 0 2
      rw [← carryDraws_bit (b := 0) Nat.two_pos] at hrest
      refine Averages.map ?_
      convert hrest using 1
      · rfl
      · funext levels
        simp only [weigh, List.countP_nil, Nat.zero_add]
      · simp only [weigh, levelWeight_eq]
        ring
    | cons level levels =>
      -- What is added above `level` counts twice as much with `level` below it.
      have hrest := (ih levels).affine (2 * level.countP P) 2
      obtain ⟨b, hb, hpattern⟩ := pattern_cons level levels
      rw [← carryDraws_bit hb, ← hpattern] at hrest
      refine Averages.map ?_
      convert hrest using 1
      · funext levels
        rw [weigh, Nat.mul_add]
      · rw [weigh, levelWeight_eq, levelWeight_eq]
        ring

end Levels

end QuantileSketch
