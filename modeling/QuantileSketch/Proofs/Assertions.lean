/-
What the operations take for granted.

An operation relies on facts that other operations have to see to: that a buffer is
full when it is compacted, that a block has the right size, that a carry ends at a
free level.  Here the operations are written out once more, index by index, with an
assertion at each place where such a fact is needed, and they stop at the first one
that does not hold:

* `Assertion`, `Asserted` — what is asserted, and a run that can stop at it;
* `Asserted.update`, `Asserted.merge` — the operations with their assertions;
* `Asserted.place_eq` — a carry that looks for the lowest free level first is the carry
  that goes from level to level;
* `Asserted.update_eq`, `Asserted.merge_eq` — no assertion fails: the runs are those
  without assertions.
-/
import QuantileSketch.Proofs.Consistency

namespace QuantileSketch

variable {α β γ : Type} {cmp : α → α → Ordering}

/-- What an operation relies on. -/
inductive Assertion
  /-- A buffer that is compacted is full. -/
  | bufferFull
  /-- A block that is added has the size of a block. -/
  | blockSize
  /-- The level at which a carry ends is there, and free. -/
  | levelFree
  /-- A list is thinned out from an offset below the stride. -/
  | offsetInRange
  /-- A sketch that is taken in has no smaller block size. -/
  | sourceNoSmaller
  /-- After a merge, the occupied levels are those that the count calls for. -/
  | patternFits
  deriving DecidableEq

/-- A run that stops at the first assertion that does not hold. -/
abbrev Asserted (β : Type) := ExceptT Assertion Randomized β

/-- The run stops here unless the condition holds. -/
def require (a : Assertion) (c : Prop) [Decidable c] : Asserted Unit :=
  if c then pure () else throw a

namespace Asserted

/-! ### The operations with their assertions

Each has the name of the operation without assertions. -/

def everyNth (stride offset : ℕ) (xs : List α) : Asserted (List α) := do
  require .offsetInRange (offset < stride)
  return QuantileSketch.everyNth stride offset xs

def halve (block : List α) : Asserted (List α) := do
  let offset ← Randomized.ask .bit
  everyNth 2 offset block

/-- Carries a block through `count` occupied levels from `level` on, and leaves them
empty. -/
def climb (cmp : α → α → Ordering) :
    (count level : ℕ) → List (List α) → List α → Asserted (List (List α) × List α)
  | 0, _, levels, block => return (levels, block)
  | count + 1, level, levels, block => do
    let half ← halve (mergeBy cmp (levels[level]?.getD []) block)
    climb cmp count (level + 1) (levels.set level []) half

/-- Adds a block at level `start`: looks for the lowest free level from there on, makes
room for it, and carries the block up to it. -/
def place (cmp : α → α → Ordering) (start : ℕ) (levels : List (List α)) (block : List α) :
    Asserted (List (List α)) := do
  let count := carryLength (Levels.pattern levels / 2 ^ start)
  let (levels, block) ← climb cmp count start (levels.rightpad (start + count + 1) []) block
  require .levelFree (levels[start + count]?.map List.isEmpty = some true)
  return levels.set (start + count) block

def carryAt (cmp : α → α → Ordering) (k start : ℕ) (levels : List (List α)) (block : List α) :
    Asserted (List (List α)) := do
  require .blockSize (block.length = k)
  place cmp start levels block

def settle (s : Sketch α cmp) (start : ℕ) (block : List α) : Asserted (Sketch α cmp) := do
  let levels ← carryAt cmp s.k start s.levels block
  let grown : List Event :=
    if s.levels.length < levels.length then [.grew levels.length s.k s.n] else []
  ExceptT.lift (.notes grown (.done { s with levels }))

def compact (s : Sketch α cmp) : Asserted (Sketch α cmp) := do
  require .bufferFull (s.buffer.size = 2 * s.k)
  let block ← halve (sortBy cmp s.buffer.toList)
  settle { s with buffer := #[] } 0 block

def update (s : Sketch α cmp) (x : α) : Asserted (Sketch α cmp) :=
  let s := s.push x
  if s.buffer.size = 2 * s.k then compact s else return s

def updateAll (s : Sketch α cmp) : List α → Asserted (Sketch α cmp)
  | [] => return s
  | x :: xs => do
    let s ← update s x
    updateAll s xs

def thin (stride : ℕ) (block : List α) : Asserted (List α) :=
  if h : 1 < stride then do
    let offset ← Randomized.ask (.below stride (pos_of_one_lt h))
    everyNth stride offset block
  else return block

def absorbBlocks (stride shift : ℕ) (s : Sketch α cmp) :
    List (ℕ × List α) → Asserted (Sketch α cmp)
  | [] => return s
  | (level, block) :: blocks => do
    let block ← thin stride block
    let s ← settle s (level + shift) block
    absorbBlocks stride shift s blocks

def absorb (s other : Sketch α cmp) : Asserted (Sketch α cmp) := do
  require .sourceNoSmaller (s.k ≤ other.k)
  let stride := other.k / s.k
  let total := s.n + other.n
  ExceptT.lift (.notes (if 1 < stride then [.downsampling other.k s.k] else []) (.done ()))
  let s ← updateAll s other.buffer.toList
  let s ← absorbBlocks stride stride.log2 s (Levels.occupied other.levels)
  return { s with n := total }

def shrink (s : Sketch α cmp) (k : ℕ) : Asserted (Sketch α cmp) :=
  absorb { s with k, n := 0, buffer := #[], levels := [] } s

def reduced (s : Sketch α cmp) (k : ℕ) : Asserted (Sketch α cmp) :=
  if k < s.k then shrink s k else return s

def merge (s other : Sketch α cmp) : Except Fault (Asserted (Sketch α cmp)) :=
  if other.isEmpty then .ok (return s)
  else if Sketch.RelatedSizes s.k other.k then
    .ok do
      let s ← reduced s other.k
      let s ← absorb s other
      let s := s.meetExtremes other
      require .patternFits (s.pattern = occupancy s.k s.n)
      return s
  else .error (.unrelatedSizes s.k other.k)

/-! ### Assertions that hold -/

theorem require_of {a : Assertion} {c : Prop} [Decidable c] (h : c) : require a c = pure () :=
  if_pos h

theorem lift_done (v : β) : (ExceptT.lift (.done v) : Asserted β) = pure v := rfl

theorem lift_bind (x : Randomized β) (f : β → Randomized γ) :
    (ExceptT.lift (x.bind f) : Asserted γ) = ExceptT.lift x >>= fun v => ExceptT.lift (f v) := by
  refine ExceptT.ext ?_
  rw [ExceptT.run_bind_lift]
  exact map_bind (fun v => (Except.ok v : Except Assertion γ)) x f

/-- What follows a run matters only for the values that it can lead to. -/
theorem lift_bind_eq {x : Randomized β} {f : β → Randomized γ} {g : β → Asserted γ}
    (h : ∀ v ∈ x, g v = ExceptT.lift (f v)) :
    ExceptT.lift x >>= g = ExceptT.lift (x.bind f) := by
  rw [lift_bind]
  refine ExceptT.ext ?_
  rw [ExceptT.run_bind_lift, ExceptT.run_bind_lift]
  exact Randomized.bind_congr_of_mem fun v hv => congrArg ExceptT.run (h v hv)

theorem notes_eq_bind (events : List Event) (x : Randomized β) :
    Randomized.notes events x = (Randomized.notes events (.done ())).bind fun _ => x := by
  induction events with
  | nil => rfl
  | cons event events ih =>
    rw [Randomized.notes, ih]
    rfl

theorem everyNth_eq {stride offset : ℕ} (h : offset < stride) (xs : List α) :
    everyNth stride offset xs = pure (QuantileSketch.everyNth stride offset xs) := by
  rw [everyNth, require_of h, pure_bind]

theorem halve_eq (block : List α) : halve block = ExceptT.lift (QuantileSketch.halve block) :=
  lift_bind_eq fun offset _ => everyNth_eq offset.isLt block

/-! ### Looking for the free level first -/

theorem climb_cons (count level : ℕ) (l : List α) (levels : List (List α)) (block : List α) :
    climb cmp count (level + 1) (l :: levels) block
      = climb cmp count level levels block >>= fun r => pure (l :: r.1, r.2) := by
  induction count generalizing level levels block with
  | zero => rfl
  | succ count ih =>
    simp only [climb, List.getElem?_cons_succ, List.set_cons_succ, ih, bind_assoc]

theorem rightpad_cons (size : ℕ) (l : List α) (levels : List (List α)) :
    (l :: levels).rightpad (size + 1) [] = l :: levels.rightpad size [] := by
  rw [List.rightpad, List.rightpad, List.length_cons, Nat.add_sub_add_right, List.cons_append]

theorem place_cons (start : ℕ) (l : List α) (levels : List (List α)) (block : List α) :
    place cmp (start + 1) (l :: levels) block
      = place cmp start levels block >>= fun out => pure (l :: out) := by
  -- Above `l` the free level is looked for in the levels without it.
  obtain ⟨b, hb, hpattern⟩ := Levels.pattern_cons l levels
  rw [place, place, hpattern, bit_div_two_pow hb]
  have hsize : start + 1 + carryLength (Levels.pattern levels / 2 ^ start)
      = start + carryLength (Levels.pattern levels / 2 ^ start) + 1 := by omega
  simp only [hsize, rightpad_cons, climb_cons, bind_assoc, pure_bind, List.getElem?_cons_succ,
    List.set_cons_succ]

theorem carryLength_pattern_nil (start : ℕ) :
    carryLength (Levels.pattern ([] : List (List α)) / 2 ^ start) = 0 := by
  rw [Levels.pattern, Nat.zero_div, carryLength, if_neg (by decide)]

theorem place_nil (start : ℕ) (block : List α) :
    place cmp (start + 1) [] block = place cmp start [] block >>= fun out => pure ([] :: out) := by
  have hpad : ([] : List (List α)).rightpad (start + 1 + 0 + 1) []
      = [] :: ([] : List (List α)).rightpad (start + 0 + 1) [] := by
    simp only [List.rightpad, List.length_nil, Nat.sub_zero, List.nil_append]
    rfl
  rw [place, place, carryLength_pattern_nil, carryLength_pattern_nil, hpad]
  simp only [climb, pure_bind, bind_assoc]
  rfl

theorem place_occupied {resident : List α} (h : resident ≠ []) (levels : List (List α))
    (block : List α) :
    place cmp 0 (resident :: levels) block
      = halve (mergeBy cmp resident block) >>= fun half =>
          place cmp 0 levels half >>= fun out => pure ([] :: out) := by
  have hcount : carryLength (Levels.pattern (resident :: levels) / 2 ^ 0)
      = carryLength (Levels.pattern levels / 2 ^ 0) + 1 := by
    rw [Nat.pow_zero, Nat.div_one, Nat.div_one, Levels.pattern_occupied h,
      carryLength_bit Nat.one_lt_two, if_pos rfl]
  have hsize : 0 + (carryLength (Levels.pattern levels / 2 ^ 0) + 1)
      = 0 + carryLength (Levels.pattern levels / 2 ^ 0) + 1 := by omega
  simp only [place]
  rw [hcount]
  simp only [hsize, rightpad_cons, climb, List.getElem?_cons_zero, Option.getD_some,
    List.set_cons_zero, climb_cons, bind_assoc, pure_bind, List.getElem?_cons_succ,
    List.set_cons_succ]

theorem place_free (levels : List (List α)) (block : List α) :
    place cmp 0 ([] :: levels) block = pure (block :: levels) := by
  have hcount : carryLength (Levels.pattern ([] :: levels) / 2 ^ 0) = 0 := by
    rw [Nat.pow_zero, Nat.div_one, Levels.pattern_free, carryLength_bit Nat.two_pos,
      if_neg Nat.zero_ne_one]
  have hpad : ([] :: levels).rightpad (0 + 0 + 1) [] = [] :: levels := by
    rw [rightpad_cons, List.rightpad, Nat.zero_sub, List.replicate_zero, List.append_nil]
  simp only [place]
  rw [hcount, hpad]
  rfl

/-- Looking for the free level first comes to the same as going from level to level. -/
theorem place_eq (start : ℕ) (levels : List (List α)) (block : List α) :
    place cmp start levels block = ExceptT.lift (Levels.carryAt cmp start levels block) := by
  induction start generalizing levels with
  | zero =>
    rw [Levels.carryAt]
    induction levels generalizing block with
    | nil =>
      simp only [place]
      rw [carryLength_pattern_nil]
      rfl
    | cons resident levels ih =>
      rw [Levels.carry]
      split
      · rename_i hfree
        rw [List.isEmpty_iff.mp hfree, place_free, lift_done]
      · rename_i hne
        rw [place_occupied (by simpa using hne), halve_eq]
        refine lift_bind_eq fun half _ => ?_
        rw [ih half]
        exact lift_bind_eq fun out _ => rfl
  | succ start ih =>
    cases levels with
    | nil =>
      rw [place_nil, ih, Levels.carryAt]
      exact lift_bind_eq fun out _ => rfl
    | cons l levels =>
      rw [place_cons, ih, Levels.carryAt]
      exact lift_bind_eq fun out _ => rfl

/-! ### No assertion fails -/

theorem carryAt_eq {k : ℕ} {block : List α} (h : block.length = k) (start : ℕ)
    (levels : List (List α)) :
    carryAt cmp k start levels block = ExceptT.lift (Levels.carryAt cmp start levels block) := by
  rw [carryAt, require_of h, pure_bind, place_eq]

theorem settle_eq {s : Sketch α cmp} {block : List α} (h : block.length = s.k) (start : ℕ) :
    settle s start block = ExceptT.lift (s.settle start block) := by
  rw [settle, carryAt_eq h]
  exact lift_bind_eq fun levels _ => rfl

theorem compact_eq {s : Sketch α cmp} (h : s.buffer.size = 2 * s.k) :
    compact s = ExceptT.lift s.compact := by
  rw [compact, require_of h, pure_bind, halve_eq]
  refine lift_bind_eq fun half hhalf => settle_eq ?_ 0
  obtain ⟨offset, rfl⟩ := mem_halve.mp hhalf
  exact Sketch.length_half_buffer h offset

theorem update_eq (s : Sketch α cmp) (x : α) : update s x = ExceptT.lift (s.update x) := by
  rw [update, Sketch.update]
  by_cases hfull : (s.push x).buffer.size = 2 * (s.push x).k
  · rw [if_pos hfull, if_pos hfull, compact_eq hfull]
  · rw [if_neg hfull, if_neg hfull, lift_done]

theorem updateAll_eq (s : Sketch α cmp) (xs : List α) :
    updateAll s xs = ExceptT.lift (s.updateAll xs) := by
  induction xs generalizing s with
  | nil => rfl
  | cons x xs ih =>
    rw [updateAll, update_eq]
    exact lift_bind_eq fun t _ => ih t

theorem thin_eq (stride : ℕ) (block : List α) :
    thin stride block = ExceptT.lift (Sketch.thin stride block) := by
  rw [thin, Sketch.thin]
  split
  · exact lift_bind_eq fun offset _ => everyNth_eq offset.isLt block
  · rfl

theorem absorbBlocks_eq {s : Sketch α cmp} {stride shift : ℕ} {blocks : List (ℕ × List α)}
    (hstride : 0 < stride) (hblocks : ∀ b ∈ blocks, b.2.length = stride * s.k) :
    absorbBlocks stride shift s blocks
      = ExceptT.lift (s.absorbBlocks stride shift blocks) := by
  induction blocks generalizing s with
  | nil => rfl
  | cons b blocks ih =>
    rw [absorbBlocks, thin_eq]
    refine lift_bind_eq fun thinned hthinned => ?_
    obtain ⟨offset, rfl⟩ := (Sketch.mem_thin hstride).mp hthinned
    rw [settle_eq (length_everyNth_of_eq_mul offset.isLt (hblocks b List.mem_cons_self))]
    refine lift_bind_eq fun t ht => ih fun c hc => ?_
    obtain ⟨levels, -, rfl⟩ := Sketch.mem_settle.mp ht
    exact hblocks c (List.mem_cons_of_mem _ hc)

theorem absorb_eq {s other : Sketch α cmp} {m : ℕ} (hs : Admissible s.k)
    (hother : other.StandsFor m) (hle : s.k ≤ other.k) :
    absorb s other = ExceptT.lift (s.absorb other) := by
  obtain ⟨e, he, hstride⟩ := hs.exists_stride hother.size hle
  rw [absorb, require_of hle, pure_bind, Sketch.absorb, notes_eq_bind]
  refine lift_bind_eq fun _ _ => ?_
  rw [updateAll_eq]
  refine lift_bind_eq fun t ht => ?_
  have hblocks : ∀ b ∈ Levels.occupied other.levels, b.2.length = other.k / s.k * t.k := by
    intro b hb
    rw [hstride]
    exact (hother.occupied he ht b hb).1
  rw [absorbBlocks_eq (hstride ▸ Nat.two_pow_pos e) hblocks]
  exact lift_bind_eq fun u _ => rfl

theorem shrink_eq {s : Sketch α cmp} {m k : ℕ} (h : s.StandsFor m) (hk : Admissible k)
    (hle : k ≤ s.k) : shrink s k = ExceptT.lift (s.shrink k) := by
  rw [shrink, Sketch.shrink]
  exact absorb_eq hk h hle

theorem reduced_eq {s : Sketch α cmp} {m k : ℕ} (h : s.StandsFor m) (hk : Admissible k) :
    reduced s k = ExceptT.lift (s.reduced k) := by
  rw [reduced, Sketch.reduced]
  split
  · rename_i hlt
    exact shrink_eq h hk (Nat.le_of_lt hlt)
  · rfl

/-- Merging sound sketches succeeds, and no assertion fails on the way. -/
theorem merge_eq [Std.TransCmp cmp] {s other : Sketch α cmp} (hs : s.Sound) (hother : other.Sound) :
    ∃ merged, s.merge other = .ok merged ∧ merge s other = .ok (ExceptT.lift merged) := by
  by_cases hn : other.n = 0
  · refine ⟨.done s, Sketch.merge_of_n_eq_zero s hn, ?_⟩
    rw [merge, Sketch.isEmpty, if_pos (by simpa using hn)]
    rfl
  · refine ⟨_, Sketch.merge_eq_ok hs.size hother.size hn, ?_⟩
    rw [merge, Sketch.isEmpty, if_neg (by simpa using hn),
      if_pos (Sketch.relatedSizes hs.size hother.size)]
    rw [reduced_eq hs.standsFor hother.size]
    refine congrArg Except.ok (lift_bind_eq fun t ht => ?_)
    obtain ⟨hstands, hk, hn'⟩ := hs.standsFor.reduced hother.size ht
    have hle : t.k ≤ other.k := hk ▸ Nat.min_le_right _ _
    rw [absorb_eq hstands.size hother.standsFor hle]
    refine lift_bind_eq fun u hu => ?_
    obtain ⟨hstands', -, hsum⟩ := hstands.absorb hother.standsFor hle hu
    rw [← hn', ← hsum] at hstands'
    -- The count is patched before the levels are compared with it.
    have hfits : (u.meetExtremes other).pattern
        = occupancy (u.meetExtremes other).k (u.meetExtremes other).n := hstands'.pattern_eq
    show (do require .patternFits _; return u.meetExtremes other) = _
    rw [require_of hfits, pure_bind, lift_done]

end Asserted

end QuantileSketch
