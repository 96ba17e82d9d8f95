/-
Where a block settles, and what stays as it is.

A block that is added at a level lands at the lowest free level from there on: the pattern
of the levels is a binary counter to which a bit is added.  Nothing but the levels that the
carry goes through is touched.

* `Levels.landing` — the level at which a block lands, the lowest clear bit of the pattern
  at or above its start (`isLeast_landing`);
* `Levels.occupancyWord`, `Levels.lowestClear` — the pattern as a word of 64 bits, and the
  search for this bit in it (`lowestClear_occupancyWord`);
* `Asserted.settleChecked` — adding a block by index, every index checked, which comes to
  the same (`Asserted.settleChecked_eq`);
* `Levels.Lands` — what becomes of each level, whatever the draws (`Levels.Carried.lands`);
* `Sketch.settle_lands` — adding a block to a sketch.

Design notes: levels need not be regular here, since free levels may be on top of them.  A
level above all others is free as well, so levels are compared with `[]` where there is
none, and how many there are is said apart.
-/
import QuantileSketch.Proofs.Assertions
import QuantileSketch.Proofs.Retained
import QuantileSketch.Proofs.Unbiased

namespace QuantileSketch

variable {α : Type} {cmp : α → α → Ordering} {k : ℕ}

namespace Levels

/-! ### The level at which a block lands -/

/-- The level at which a block lands that is added at level `start`. -/
def landing (levels : List (List α)) (start : ℕ) : ℕ :=
  start + carryLength (pattern levels / 2 ^ start)

theorem landing_nil (start : ℕ) : landing ([] : List (List α)) start = start := by
  rw [landing, Asserted.carryLength_pattern_nil, Nat.add_zero]

theorem landing_free (levels : List (List α)) : landing ([] :: levels) 0 = 0 := by
  rw [landing, Nat.pow_zero, Nat.div_one, pattern_free, carryLength_bit Nat.two_pos,
    if_neg Nat.zero_ne_one]

theorem landing_occupied {resident : List α} (h : resident ≠ []) (levels : List (List α)) :
    landing (resident :: levels) 0 = landing levels 0 + 1 := by
  rw [landing, landing, Nat.pow_zero, Nat.div_one, Nat.div_one, pattern_occupied h,
    carryLength_bit Nat.one_lt_two, if_pos rfl, Nat.add_assoc]

theorem landing_succ (level : List α) (levels : List (List α)) (start : ℕ) :
    landing (level :: levels) (start + 1) = landing levels start + 1 := by
  obtain ⟨b, hb, hpattern⟩ := pattern_cons level levels
  rw [landing, landing, hpattern, bit_div_two_pow hb]
  omega

/-- A block lands at the lowest clear bit at or above its start. -/
theorem isLeast_landing (levels : List (List α)) (start : ℕ) :
    IsLeast {i | start ≤ i ∧ (pattern levels).testBit i = false} (landing levels start) := by
  obtain ⟨hclear, hleast⟩ := isLeast_carryLength (pattern levels / 2 ^ start)
  have hbit : ∀ i,
      (pattern levels / 2 ^ start).testBit i = (pattern levels).testBit (start + i) := by
    intro i
    rw [Nat.testBit_div_two_pow, Nat.add_comm]
  refine ⟨⟨Nat.le_add_right _ _, (hbit _).symm.trans hclear⟩, ?_⟩
  rintro i ⟨hstart, hi⟩
  obtain ⟨j, rfl⟩ := Nat.exists_eq_add_of_le hstart
  exact Nat.add_le_add_left (hleast ((hbit j).trans hi)) start

/-- What the pattern with the new bit can reach bounds the level at which the block
lands. -/
theorem two_pow_landing_le (levels : List (List α)) (start : ℕ) :
    2 ^ landing levels start ≤ pattern levels + 2 ^ start :=
  calc 2 ^ landing levels start
      = 2 ^ start * 2 ^ carryLength (pattern levels / 2 ^ start) := Nat.pow_add _ _ _
    _ ≤ 2 ^ start * (pattern levels / 2 ^ start + 1) :=
        Nat.mul_le_mul_left _ (two_pow_carryLength_le _)
    _ = 2 ^ start * (pattern levels / 2 ^ start) + 2 ^ start := Nat.mul_succ _ _
    _ ≤ pattern levels + 2 ^ start := Nat.add_le_add_right (Nat.mul_div_le _ _) _

/-! ### Patterns in a word -/

/-- The pattern of levels as a word of 64 bits. -/
def occupancyWord (levels : List (List α)) : UInt64 :=
  (occupied levels).foldl (fun bits b => bits ||| 1 <<< UInt64.ofNat b.1) 0

/-- The lowest clear bit of a word at or above `start`, of which the lowest six bits
count: as many bits higher as there are set ones in a row. -/
def lowestClear (bits : UInt64) (start : ℕ) : ℕ :=
  start % 64 + carryLength (bits >>> UInt64.ofNat (start % 64)).toNat

theorem toNat_ofNat_of_lt_width {i : ℕ} (hi : i < 64) : (UInt64.ofNat i).toNat = i :=
  UInt64.toNat_ofNat_of_lt (Nat.lt_trans hi (by decide))

theorem toNat_one_shiftLeft {i : ℕ} (hi : i < 64) :
    ((1 : UInt64) <<< UInt64.ofNat i).toNat = 2 ^ i := by
  have hpow : 2 ^ i < 2 ^ 64 := Nat.pow_lt_pow_right Nat.one_lt_two hi
  rw [UInt64.toNat_shiftLeft, toNat_ofNat_of_lt_width hi, Nat.mod_eq_of_lt hi]
  show 1 <<< i % 2 ^ 64 = 2 ^ i
  rw [Nat.one_shiftLeft, Nat.mod_eq_of_lt hpow]

/-- The bits of a pattern from level `i` on, the lowest one apart. -/
theorem two_pow_or_shiftLeft (p i : ℕ) : 2 ^ i ||| p <<< (i + 1) = (1 + 2 * p) <<< i := by
  have hodd : 1 + 2 * p = 1 ||| p <<< 1 := by
    have hadd := Nat.two_pow_add_eq_or_of_lt (i := 1) (b := 1) (by decide) p
    rw [Nat.pow_one] at hadd
    rw [Nat.add_comm, hadd, Nat.or_comm, Nat.shiftLeft_eq, Nat.pow_one, Nat.mul_comm]
  rw [hodd, Nat.shiftLeft_or_distrib, Nat.one_shiftLeft, ← Nat.shiftLeft_add, Nat.add_comm 1]

theorem toNat_foldl_occupiedFrom {i : ℕ} {levels : List (List α)} (h : i + levels.length ≤ 64)
    (bits : UInt64) :
    ((occupiedFrom i levels).foldl (fun bits b => bits ||| 1 <<< UInt64.ofNat b.1) bits).toNat
      = bits.toNat ||| pattern levels <<< i := by
  -- Level `i` sets its own bit only, and the bits above are those of the other levels.
  induction levels generalizing i bits with
  | nil => simp [occupiedFrom, pattern]
  | cons level levels ih =>
    rw [List.length_cons] at h
    have hrest : i + 1 + levels.length ≤ 64 := by omega
    rw [occupiedFrom]
    split
    · rename_i hempty
      rw [ih hrest, List.isEmpty_iff.mp hempty, pattern_free, Nat.zero_add, Nat.shiftLeft_succ,
        Nat.shiftLeft_eq (2 * _), Nat.shiftLeft_eq, Nat.mul_assoc]
    · rename_i hne
      rw [List.foldl_cons, ih hrest, UInt64.toNat_or, toNat_one_shiftLeft (by omega), Nat.or_assoc,
        two_pow_or_shiftLeft, pattern_occupied (by simpa using hne)]

/-- The word holds the pattern as long as there are no more than 64 levels. -/
theorem toNat_occupancyWord {levels : List (List α)} (h : levels.length ≤ 64) :
    (occupancyWord levels).toNat = pattern levels := by
  rw [occupancyWord, occupied, toNat_foldl_occupiedFrom (by omega)]
  simp

/-- The search in the word finds the level at which a block lands. -/
theorem lowestClear_occupancyWord {levels : List (List α)} {start : ℕ}
    (hslots : levels.length ≤ 64) (hstart : start < 64) :
    lowestClear (occupancyWord levels) start = landing levels start := by
  rw [lowestClear, Nat.mod_eq_of_lt hstart, UInt64.toNat_shiftRight,
    toNat_ofNat_of_lt_width hstart, Nat.mod_eq_of_lt hstart, Nat.shiftRight_eq_div_pow,
    toNat_occupancyWord hslots, landing]

end Levels

/-! ### Adding a block by index -/

namespace Asserted

/-- Carries a block through `count` levels from `level` on.  A level that is not there
counts as one that is not free, and the run stops at it. -/
def climbChecked (cmp : α → α → Ordering) :
    (count level : ℕ) → List (List α) → List α → Asserted (List (List α) × List α)
  | 0, _, levels, block => return (levels, block)
  | count + 1, level, levels, block => do
    require .levelFree (level < levels.length)
    let half ← halve (mergeBy cmp (levels[level]?.getD []) block)
    climbChecked cmp count (level + 1) (levels.set level []) half

/-- Adds a block at level `start`: finds in a word where it lands, makes room up to there if
there is none, and carries the block there. -/
def placeChecked (cmp : α → α → Ordering) (start : ℕ) (levels : List (List α)) (block : List α) :
    Asserted (List (List α)) := do
  let stop := Levels.lowestClear (Levels.occupancyWord levels) start
  let levels := if levels.length ≤ stop then levels.rightpad (stop + 1) [] else levels
  let (levels, block) ← climbChecked cmp (stop - start) start levels block
  require .levelFree (levels[stop]?.map List.isEmpty = some true)
  return levels.set stop block

/-- Adds a block to a sketch, with every index checked. -/
def settleChecked (s : Sketch α cmp) (start : ℕ) (block : List α) : Asserted (Sketch α cmp) := do
  require .blockSize (block.length = s.k)
  let levels ← placeChecked cmp start s.levels block
  let grown : List Event :=
    if s.levels.length < levels.length then [.grew levels.length s.k s.n] else []
  ExceptT.lift (.notes grown (.done { s with levels }))

/-- No level is missing on the way if there is one for each step. -/
theorem climbChecked_eq {count level : ℕ} {levels : List (List α)}
    (h : level + count ≤ levels.length) (block : List α) :
    climbChecked cmp count level levels block = climb cmp count level levels block := by
  induction count generalizing level levels block with
  | zero => rfl
  | succ count ih =>
    have hnext : level + 1 + count ≤ (levels.set level []).length := by
      rw [List.length_set]
      omega
    rw [climbChecked, climb, require_of (by omega), pure_bind]
    exact bind_congr fun half => ih hnext half

theorem placeChecked_eq {start : ℕ} {levels : List (List α)} (hslots : levels.length ≤ 64)
    (hstart : start < 64) (block : List α) :
    placeChecked cmp start levels block = place cmp start levels block := by
  have hroom : ∀ stop, (if levels.length ≤ stop then levels.rightpad (stop + 1) [] else levels)
      = levels.rightpad (stop + 1) [] := by
    intro stop
    split
    · rfl
    · rw [List.rightpad, Nat.sub_eq_zero_of_le (by omega), List.replicate_zero, List.append_nil]
  have hlength : ∀ size, size ≤ (levels.rightpad size []).length := by
    intro size
    rw [List.length_rightpad]
    exact Nat.le_max_left _ _
  -- Both look for the same level and make the same room, so that no level is missing.
  rw [placeChecked, place]
  simp only [Levels.lowestClear_occupancyWord hslots hstart, hroom, Levels.landing,
    Nat.add_sub_cancel_left]
  rw [climbChecked_eq (Nat.le_of_succ_le (hlength _))]

/-- Every index is that of a level that is there, and the block lands at a free one. -/
theorem settleChecked_eq {s : Sketch α cmp} {start : ℕ} {block : List α}
    (hslots : s.levels.length ≤ 64) (hstart : start < 64) (hlen : block.length = s.k) :
    settleChecked s start block = ExceptT.lift (s.settle start block) := by
  rw [← settle_eq hlen, settleChecked, placeChecked_eq hslots hstart, settle, carryAt, bind_assoc]

end Asserted

/-! ### What becomes of each level -/

namespace Levels

/-- The block has landed at level `stop`, and nothing but the levels from `start` to there
has changed. -/
structure Lands (cmp : α → α → Ordering) (k start stop : ℕ) (levels : List (List α))
    (block : List α) (out : List (List α)) : Prop where
  /-- There are as many levels as before, or no more than reach up to `stop`. -/
  length_eq : out.length = max levels.length (stop + 1)
  /-- Levels below the start and above the one where the block landed are as they were. -/
  unchanged : ∀ i, i < start ∨ stop < i → out[i]?.getD [] = levels[i]?.getD []
  /-- The levels on the way are free. -/
  emptied : ∀ i, start ≤ i → i < stop → out[i]? = some []
  /-- What has landed are `k` items in order, from the block and from the levels on the
  way. -/
  landed : ∃ landed, out[stop]? = some landed ∧ landed.length = k ∧ Sorted cmp landed
    ∧ (landed : Multiset α) ≤ block + ((levels.drop start).take (stop - start)).flatten

theorem lands_grow {block : List α} (hlen : block.length = k) (hsorted : Sorted cmp block) :
    Lands cmp k 0 0 [] block [block] where
  length_eq := rfl
  unchanged i hi := by
    rw [List.getElem?_eq_none (by rw [List.length_singleton]; omega)]
    rfl
  emptied i _ hi := absurd hi (Nat.not_lt_zero i)
  landed := ⟨block, rfl, hlen, hsorted, by simp⟩

theorem lands_free (levels : List (List α)) {block : List α} (hlen : block.length = k)
    (hsorted : Sorted cmp block) : Lands cmp k 0 0 ([] :: levels) block (block :: levels) where
  length_eq := by
    rw [List.length_cons, List.length_cons]
    omega
  unchanged i hi := by
    obtain ⟨i, rfl⟩ : ∃ j, i = j + 1 := ⟨i - 1, by omega⟩
    rfl
  emptied i _ hi := absurd hi (Nat.not_lt_zero i)
  landed := ⟨block, rfl, hlen, hsorted, by simp⟩

/-- A level is passed by on the way to the start. -/
theorem Lands.skip {start stop : ℕ} {levels out : List (List α)} {block : List α}
    (h : Lands cmp k start stop levels block out) (level : List α) :
    Lands cmp k (start + 1) (stop + 1) (level :: levels) block (level :: out) where
  length_eq := by
    rw [List.length_cons, List.length_cons, h.length_eq]
    omega
  unchanged i hi := by
    cases i with
    | zero => rfl
    | succ i => exact h.unchanged i (by omega)
  emptied i hstart hstop := by
    obtain ⟨i, rfl⟩ : ∃ j, i = j + 1 := ⟨i - 1, by omega⟩
    exact h.emptied i (by omega) (by omega)
  landed := by
    rw [Nat.add_sub_add_right]
    exact h.landed

/-- A level is missing on the way to the start. -/
theorem Lands.pad {start stop : ℕ} {out : List (List α)} {block : List α}
    (h : Lands cmp k start stop [] block out) :
    Lands cmp k (start + 1) (stop + 1) [] block ([] :: out) where
  length_eq := by
    rw [List.length_cons, h.length_eq, List.length_nil]
    omega
  unchanged i hi := by
    cases i with
    | zero => rfl
    | succ i => exact h.unchanged i (by omega)
  emptied i hstart hstop := by
    obtain ⟨i, rfl⟩ : ∃ j, i = j + 1 := ⟨i - 1, by omega⟩
    exact h.emptied i (by omega) (by omega)
  landed := by
    simpa using h.landed

/-- A level gives its items to the carry. -/
theorem Lands.carry {stop : ℕ} {resident block half : List α} {levels out : List (List α)}
    (h : Lands cmp k 0 stop levels half out)
    (hhalf : (half : Multiset α) ≤ resident + block) :
    Lands cmp k 0 (stop + 1) (resident :: levels) block ([] :: out) where
  length_eq := by
    rw [List.length_cons, List.length_cons, h.length_eq]
    omega
  unchanged i hi := by
    obtain ⟨i, rfl⟩ : ∃ j, i = j + 1 := ⟨i - 1, by omega⟩
    exact h.unchanged i (by omega)
  emptied i _ hstop := by
    cases i with
    | zero => rfl
    | succ i => exact h.emptied i (Nat.zero_le i) (by omega)
  landed := by
    obtain ⟨landed, hout, hlen, hsorted, hle⟩ := h.landed
    refine ⟨landed, hout, hlen, hsorted, ?_⟩
    rw [List.drop_zero, Nat.sub_zero] at hle ⊢
    calc (landed : Multiset α) ≤ half + (levels.take stop).flatten := hle
      _ ≤ resident + block + (levels.take stop).flatten := by gcongr
      _ = block + ((resident :: levels).take (stop + 1)).flatten := by
          rw [List.take_succ_cons, List.flatten_cons, ← Multiset.coe_add]
          abel

/-- Wherever a block is added, it lands. -/
theorem Carried.lands [Std.TransCmp cmp] {start : ℕ} {levels out : List (List α)}
    {block : List α} (h : Carried cmp start levels block out) (hlen : block.length = k)
    (hblock : Sorted cmp block)
    (hlevels : ∀ level ∈ levels, level ≠ [] → level.length = k ∧ Sorted cmp level) :
    Lands cmp k start (landing levels start) levels block out := by
  -- Each rule of the carry moves the landing as the bits of the pattern do.
  induction h with
  | grow block =>
    rw [landing_nil]
    exact lands_grow hlen hblock
  | settle levels block =>
    rw [landing_free]
    exact lands_free levels hlen hblock
  | @carry resident block levels out offset hne h ih =>
    obtain ⟨hresident, hrest⟩ := List.forall_mem_cons.mp hlevels
    obtain ⟨hlen', hsorted'⟩ := hresident hne
    have hhalf := ih (length_half_mergeBy hlen' hlen offset)
      ((hsorted'.mergeBy hblock).everyNth 2 offset) hrest
    rw [landing_occupied hne]
    exact hhalf.carry (half_mergeBy_le offset resident block)
  | pad h ih =>
    have hout := ih hlen hblock (by simp)
    rw [landing_nil] at hout ⊢
    exact hout.pad
  | skip level h ih =>
    rw [landing_succ]
    exact (ih hlen hblock (List.forall_mem_cons.mp hlevels).2).skip level

end Levels

namespace Sketch

/-- One bit is drawn for each level before the one where the block lands. -/
theorem asks_settle (s : Sketch α cmp) (start : ℕ) (block : List α) :
    (s.settle start block).Asks
      (List.replicate (Levels.landing s.levels start - start) .bit) := by
  rw [Levels.landing, Nat.add_sub_cancel_left]
  exact (averages_settle (fun _ => false) s start block).asks

/-- **Adding a block is adding a bit, and touches nothing else.**  A sketch has at most 62
levels, each free or with `k` items in order, and a block of `k` items in order is added at
a level, where there is room for its bit.  No index is out of bounds on the way to the
lowest free level at or above the start.  One bit is drawn for each level before that.
Whatever is drawn, the bit of the start is added to the pattern, and nothing is changed but
the levels from the start to where the block lands. -/
theorem settle_lands [Std.TransCmp cmp] {s : Sketch α cmp} {start : ℕ} {block : List α}
    (hk : 0 < s.k) (hslots : s.levels.length ≤ 62)
    (hlevels : ∀ level ∈ s.levels, level ≠ [] → level.length = s.k ∧ Sorted cmp level)
    (hlen : block.length = s.k) (hblock : Sorted cmp block)
    (hroom : s.pattern + 2 ^ start < 2 ^ 63) :
    Asserted.settleChecked s start block = ExceptT.lift (s.settle start block)
      ∧ ∃ stop < 63, IsLeast {i | start ≤ i ∧ s.pattern.testBit i = false} stop
          ∧ (s.settle start block).Asks (List.replicate (stop - start) .bit)
          ∧ ∀ t ∈ s.settle start block, t = { s with levels := t.levels }
              ∧ t.pattern = s.pattern + 2 ^ start
              ∧ Levels.Lands cmp s.k start stop s.levels block t.levels := by
  have hlanding : Levels.landing s.levels start < 63 := by
    have hle := Levels.two_pow_landing_le s.levels start
    exact (Nat.pow_lt_pow_iff_right Nat.one_lt_two).mp (Nat.lt_of_le_of_lt hle hroom)
  have hstart : start ≤ Levels.landing s.levels start := Nat.le_add_right _ _
  refine ⟨Asserted.settleChecked_eq (by omega) (by omega) hlen,
    Levels.landing s.levels start, hlanding, Levels.isLeast_landing s.levels start,
    asks_settle s start block, fun t ht => ?_⟩
  obtain ⟨levels, hmem, rfl⟩ := mem_settle.mp ht
  have hcarried := Levels.carried_of_mem hmem
  exact ⟨rfl, hcarried.pattern_add hk hlen fun level hlevel hne => (hlevels level hlevel hne).1,
    hcarried.lands hlen hblock hlevels⟩

/-- A sketch with two occupied levels above a free one. -/
def twoInARow : Sketch ℕ compare where
  k := 2
  n := 24
  levels := [[], [1, 4], [2, 6]]
  least := some 1
  greatest := some 6

/-- A block that is added at level `1` goes on to level `3`, which was not there. -/
theorem settle_lands_twoInARow :
    (∀ b ∈ twoInARow.levels, b ≠ [] → b.length = twoInARow.k ∧ Sorted compare b)
      ∧ Sorted compare [3, 5] ∧ twoInARow.pattern + 2 ^ 1 < 2 ^ 63
      ∧ Asserted.settleChecked twoInARow 1 [3, 5] = ExceptT.lift (twoInARow.settle 1 [3, 5])
      ∧ (twoInARow.settle 1 [3, 5]).Asks [.bit, .bit]
      ∧ ∀ t ∈ twoInARow.settle 1 [3, 5], t = { twoInARow with levels := t.levels }
          ∧ t.pattern = 8 ∧ t.levels.length = 4
          ∧ Levels.Lands compare 2 1 3 [[], [1, 4], [2, 6]] [3, 5] t.levels := by
  have hlevels : ∀ b ∈ twoInARow.levels,
      b ≠ [] → b.length = twoInARow.k ∧ Sorted compare b := by
    simp only [Sorted]
    decide
  have hblock : Sorted compare [3, 5] := by
    rw [Sorted]
    decide
  have hroom : twoInARow.pattern + 2 ^ 1 < 2 ^ 63 := by decide
  obtain ⟨hchecked, stop, -, hleast, hasks, hlands⟩ :=
    settle_lands (by decide) (by decide) hlevels rfl hblock hroom
  have hthree : IsLeast {i | 1 ≤ i ∧ twoInARow.pattern.testBit i = false} 3 := by
    refine ⟨by decide, ?_⟩
    rintro i ⟨hi, hclear⟩
    by_contra hlt
    obtain rfl | rfl : i = 1 ∨ i = 2 := by omega
    · cases hclear
    · cases hclear
  obtain rfl : stop = 3 := hleast.unique hthree
  refine ⟨hlevels, hblock, hroom, hchecked, hasks, fun t ht => ?_⟩
  obtain ⟨hrest, hpattern, hlevels⟩ := hlands t ht
  exact ⟨hrest, hpattern, hlevels.length_eq, hlevels⟩

end Sketch

end QuantileSketch
