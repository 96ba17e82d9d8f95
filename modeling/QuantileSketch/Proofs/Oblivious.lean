/-
The layout of a sketch is oblivious.

Which draws a sketch asks for, and which of its levels are occupied, depends neither on its
items nor on the answers to earlier draws.  Two sketches that differ in both go on in step:

* `Randomized.InStep` — the same draws and events, even when they are answered differently,
  and values in a relation;
* `Levels.Congruent`, `Sketch.Congruent` — the same shape, with related items wherever an
  item has not been through a compaction yet;
* `Sketch.Congruent.update`, `Sketch.Congruent.merge` — one step of two congruent sketches;
* `layout_oblivious` — whole histories.

Design notes: the items of the buffers and the extremes are in a relation `R`, which
comparing has to respect (`Respects`).  With equality this says what the draws cannot
change, and with the relation that always holds, what the items cannot change.  The
comparisons need not be orders.
-/
import QuantileSketch.Proofs.Consistency
import QuantileSketch.Proofs.Histories
import QuantileSketch.Random.Replay
import QuantileSketch.Random.XorShift

open QuantileSketch.Randomized

namespace QuantileSketch

variable {α β : Type} {cmp : α → α → Ordering} {cmp' : β → β → Ordering} {R : α → β → Prop}

/-! ### The same draws, whatever the answers -/

namespace Randomized

variable {γ δ γ' δ' : Type}

/-- Two values ask for the same draws and note the same events, also when the answers differ,
and what they come to is related. -/
inductive InStep (Q : γ → δ → Prop) : Randomized γ → Randomized δ → Prop
  /-- Nothing is left to draw. -/
  | done {v : γ} {w : δ} (h : Q v w) : InStep Q (done v) (done w)
  /-- Both ask for the same draw. -/
  | draw {d : Draw} {next : Fin d.range → Randomized γ} {next' : Fin d.range → Randomized δ}
    (h : ∀ answer answer', InStep Q (next answer) (next' answer')) :
    InStep Q (draw d next) (draw d next')
  /-- Both note the same event. -/
  | note {event : Event} {x : Randomized γ} {y : Randomized δ} (h : InStep Q x y) :
    InStep Q (note event x) (note event y)

theorem InStep.notes {Q : γ → δ → Prop} {x : Randomized γ} {y : Randomized δ}
    (h : InStep Q x y) {events events' : List Event} (hevents : events = events') :
    InStep Q (notes events x) (notes events' y) := by
  subst hevents
  induction events with
  | nil => exact h
  | cons event events ih => exact .note ih

theorem InStep.bind {Q : γ → δ → Prop} {T : γ' → δ' → Prop} {x : Randomized γ}
    {y : Randomized δ} {f : γ → Randomized γ'} {g : δ → Randomized δ'} (h : InStep Q x y)
    (hfg : ∀ v w, Q v w → InStep T (f v) (g w)) : InStep T (x.bind f) (y.bind g) := by
  induction h with
  | done h => exact hfg _ _ h
  | draw _ ih => exact .draw ih
  | note _ ih => exact .note ih

/-- Whatever sources answer them, runs have the same draws recorded. -/
theorem InStep.run {ρ σ : Type} [RandomSource ρ] [RandomSource σ] {Q : γ → δ → Prop}
    {x : Randomized γ} {y : Randomized δ} (h : InStep Q x y) {r : Recorded ρ} {r' : Recorded σ}
    (hdraws : r.draws = r'.draws) :
    Q (x.run r).value (y.run r').value ∧ (x.run r).source.draws = (y.run r').source.draws := by
  induction h generalizing r r' with
  | done h => exact ⟨h, hdraws⟩
  | draw _ ih => exact ih _ _ (congrArg (· ++ _) hdraws)
  | note _ ih => exact ih hdraws

end Randomized

/-! ### Levels of the same shape -/

namespace Levels

variable {k : ℕ}

/-- Both levels are free, or both hold `k` items. -/
inductive SameSize (k : ℕ) : List α → List β → Prop
  | free : SameSize k [] []
  | occupied {level : List α} {level' : List β} (h : level.length = k) (h' : level'.length = k) :
    SameSize k level level'

/-- Levels of the same shape, with blocks of `k` items. -/
abbrev Congruent (k : ℕ) : List (List α) → List (List β) → Prop := List.Forall₂ (SameSize k)

theorem isEmpty_of_length {level : List α} (hk : 0 < k) (h : level.length = k) :
    level.isEmpty = false :=
  List.isEmpty_eq_false_iff.mpr (List.ne_nil_of_length_pos (h ▸ hk))

theorem Congruent.pattern_eq {levels : List (List α)} {levels' : List (List β)} (hk : 0 < k)
    (h : Congruent k levels levels') : pattern levels = pattern levels' := by
  induction h with
  | nil => rfl
  | cons hlevel _ ih =>
    cases hlevel with
    | free => rw [pattern_free, pattern_free, ih]
    | occupied h h' =>
      rw [pattern_occupied (List.ne_nil_of_length_pos (h ▸ hk)),
        pattern_occupied (List.ne_nil_of_length_pos (h' ▸ hk)), ih]

/-- The occupied levels are the same ones, with blocks of the same size. -/
theorem Congruent.occupiedFrom {levels : List (List α)} {levels' : List (List β)} (hk : 0 < k)
    (h : Congruent k levels levels') (i : ℕ) :
    List.Forall₂ (fun b b' => b.1 = b'.1 ∧ b.2.length = k ∧ b'.2.length = k)
      (occupiedFrom i levels) (occupiedFrom i levels') := by
  induction h generalizing i with
  | nil => exact .nil
  | cons hlevel _ ih =>
    cases hlevel with
    | free => exact ih (i + 1)
    | occupied h h' =>
      rw [Levels.occupiedFrom, Levels.occupiedFrom, isEmpty_of_length hk h, isEmpty_of_length hk h']
      exact .cons ⟨rfl, h, h'⟩ (ih (i + 1))

/-- Half of `2 * k` items is a block of `k` items, whichever half it is. -/
theorem inStep_halve {xs : List α} {ys : List β} (hx : xs.length = 2 * k)
    (hy : ys.length = 2 * k) :
    InStep (fun half half' => half.length = k ∧ half'.length = k) (halve xs) (halve ys) :=
  .draw fun offset offset' => .done ⟨length_everyNth_of_eq_mul offset.isLt hx,
    length_everyNth_of_eq_mul offset'.isLt hy⟩

theorem Congruent.carry {levels : List (List α)} {levels' : List (List β)} {block : List α}
    {block' : List β} (hk : 0 < k) (h : Congruent k levels levels') (hb : block.length = k)
    (hb' : block'.length = k) :
    InStep (Congruent k) (carry cmp levels block) (carry cmp' levels' block') := by
  induction h generalizing block block' with
  | nil => exact .done (.cons (.occupied hb hb') .nil)
  | @cons level level' _ _ hlevel hrest ih =>
    cases hlevel with
    | free => exact .done (.cons (.occupied hb hb') hrest)
    | occupied h h' =>
      have hmerge : (mergeBy cmp level block).length = 2 * k := by
        rw [length_mergeBy, h, hb, Nat.two_mul]
      have hmerge' : (mergeBy cmp' level' block').length = 2 * k := by
        rw [length_mergeBy, h', hb', Nat.two_mul]
      rw [Levels.carry, Levels.carry, isEmpty_of_length hk h, isEmpty_of_length hk h']
      exact (inStep_halve hmerge hmerge').bind fun half half' hhalf =>
        (ih hhalf.1 hhalf.2).bind fun _ _ hout => .done (.cons .free hout)

theorem Congruent.carryAt {levels : List (List α)} {levels' : List (List β)} {block : List α}
    {block' : List β} (hk : 0 < k) (h : Congruent k levels levels') (hb : block.length = k)
    (hb' : block'.length = k) (start : ℕ) :
    InStep (Congruent k) (carryAt cmp start levels block) (carryAt cmp' start levels' block') := by
  induction start generalizing levels levels' with
  | zero => exact h.carry hk hb hb'
  | succ start ih =>
    cases h with
    | nil => exact (ih .nil).bind fun _ _ hout => .done (.cons .free hout)
    | cons hlevel hrest => exact (ih hrest).bind fun _ _ hout => .done (.cons hlevel hout)

end Levels

namespace Sketch

/-! ### Sketches of the same shape -/

/-- Comparing finds related extremes among related items. -/
structure Respects (R : α → β → Prop) (cmp : α → α → Ordering) (cmp' : β → β → Ordering) :
    Prop where
  lesser : ∀ {known known' x x'}, Option.Rel R known known' → R x x' →
    Option.Rel R (lesser cmp known x) (lesser cmp' known' x')
  greater : ∀ {known known' x x'}, Option.Rel R known known' → R x x' →
    Option.Rel R (greater cmp known x) (greater cmp' known' x')

/-- Sketches of block size `k` and of the same shape, with related items in their buffers and
for their extremes. -/
structure Congruent (R : α → β → Prop) (k : ℕ) (s : Sketch α cmp) (s' : Sketch β cmp') :
    Prop where
  size : s.k = k
  size' : s'.k = k
  count : s.n = s'.n
  buffer : List.Forall₂ R s.buffer.toList s'.buffer.toList
  levels : Levels.Congruent k s.levels s'.levels
  least : Option.Rel R s.least s'.least
  greatest : Option.Rel R s.greatest s'.greatest

theorem congruent_empty (R : α → β → Prop) (k : ℕ) :
    (empty k : Sketch α cmp).Congruent R k (empty k : Sketch β cmp') :=
  ⟨rfl, rfl, rfl, .nil, .nil, .none, .none⟩

namespace Congruent

variable {k : ℕ} {s : Sketch α cmp} {s' : Sketch β cmp'}

theorem size_buffer (h : s.Congruent R k s') : s.buffer.size = s'.buffer.size := by
  rw [← Array.length_toList, ← Array.length_toList, h.buffer.length_eq]

/-- The levels get a block. -/
theorem settle (hk : 0 < k) (h : s.Congruent R k s') {block : List α} {block' : List β}
    (hb : block.length = k) (hb' : block'.length = k) (start : ℕ) :
    InStep (Congruent R k) (s.settle start block) (s'.settle start block') := by
  rw [Sketch.settle, Sketch.settle]
  refine (h.levels.carryAt hk hb hb' start).bind fun levels levels' hlevels => ?_
  refine InStep.notes (.done ⟨h.size, h.size', h.count, h.buffer, hlevels, h.least, h.greatest⟩) ?_
  rw [h.levels.length_eq, hlevels.length_eq, h.size, h.size', h.count]

theorem compact (hk : 0 < k) (h : s.Congruent R k s') (hfull : s.buffer.size = 2 * k) :
    InStep (Congruent R k) s.compact s'.compact := by
  have hsorted : (sortBy cmp s.buffer.toList).length = 2 * k := by
    rw [length_sortBy, Array.length_toList, hfull]
  have hsorted' : (sortBy cmp' s'.buffer.toList).length = 2 * k := by
    rw [length_sortBy, Array.length_toList, ← h.size_buffer, hfull]
  have hflushed : ({ s with buffer := #[] } : Sketch α cmp).Congruent R k
      ({ s' with buffer := #[] } : Sketch β cmp') :=
    ⟨h.size, h.size', h.count, .nil, h.levels, h.least, h.greatest⟩
  exact (Levels.inStep_halve hsorted hsorted').bind fun _ _ hhalf =>
    hflushed.settle hk hhalf.1 hhalf.2 0

theorem push (hR : Respects R cmp cmp') (h : s.Congruent R k s') {x : α} {x' : β} (hx : R x x') :
    (s.push x).Congruent R k (s'.push x') where
  size := h.size
  size' := h.size'
  count := congrArg (· + 1) h.count
  buffer := by
    show List.Forall₂ R (s.buffer.push x).toList (s'.buffer.push x').toList
    rw [Array.toList_push, Array.toList_push]
    exact List.rel_append h.buffer (.cons hx .nil)
  levels := h.levels
  least := hR.lesser h.least hx
  greatest := hR.greater h.greatest hx

/-- One item each. -/
theorem update (hR : Respects R cmp cmp') (hk : 0 < k) (h : s.Congruent R k s') {x : α} {x' : β}
    (hx : R x x') : InStep (Congruent R k) (s.update x) (s'.update x') := by
  have hpush := h.push hR hx
  have hsize : (s.push x).k = (s'.push x').k := h.size.trans h.size'.symm
  rw [Sketch.update, Sketch.update, ← hpush.size_buffer, ← hsize, hpush.size]
  split
  · exact hpush.compact hk ‹_›
  · exact .done hpush

/-- Related items in a row. -/
theorem updateAll (hR : Respects R cmp cmp') (hk : 0 < k) (h : s.Congruent R k s') {xs : List α}
    {xs' : List β} (hxs : List.Forall₂ R xs xs') :
    InStep (Congruent R k) (s.updateAll xs) (s'.updateAll xs') := by
  induction hxs generalizing s s' with
  | nil => exact .done h
  | cons hx _ ih => exact (h.update hR hk hx).bind fun _ _ ht => ih ht

end Congruent

theorem inStep_thin {stride k : ℕ} (h : 0 < stride) {block : List α} {block' : List β}
    (hb : block.length = stride * k) (hb' : block'.length = stride * k) :
    InStep (fun thinned thinned' => thinned.length = k ∧ thinned'.length = k) (thin stride block)
      (thin stride block') := by
  rw [thin, thin]
  split
  · exact .draw fun offset offset' => .done ⟨length_everyNth_of_eq_mul offset.isLt hb,
      length_everyNth_of_eq_mul offset'.isLt hb'⟩
  · obtain rfl : stride = 1 := by omega
    rw [Nat.one_mul] at hb hb'
    exact .done ⟨hb, hb'⟩

namespace Congruent

variable {k : ℕ} {s other : Sketch α cmp} {s' other' : Sketch β cmp'}

/-- Blocks of the same size at the same levels. -/
theorem absorbBlocks (hk : 0 < k) (h : s.Congruent R k s') {stride shift : ℕ}
    (hstride : 0 < stride) {blocks : List (ℕ × List α)} {blocks' : List (ℕ × List β)}
    (hblocks : List.Forall₂
      (fun b b' => b.1 = b'.1 ∧ b.2.length = stride * k ∧ b'.2.length = stride * k)
      blocks blocks') :
    InStep (Congruent R k) (s.absorbBlocks stride shift blocks)
      (s'.absorbBlocks stride shift blocks') := by
  induction hblocks generalizing s s' with
  | nil => exact .done h
  | cons hb _ ih =>
    obtain ⟨hlevel, hsize, hsize'⟩ := hb
    rw [Sketch.absorbBlocks, Sketch.absorbBlocks, ← hlevel]
    exact (inStep_thin hstride hsize hsize').bind fun _ _ hthinned =>
      (h.settle hk hthinned.1 hthinned.2 _).bind fun _ _ ht => ih ht

/-- Two sketches each, of which the second ones have no smaller block size. -/
theorem absorb (hR : Respects R cmp cmp') {e : ℕ} (hk : 0 < k) (h : s.Congruent R k s')
    (hother : other.Congruent R (2 ^ e * k) other') :
    InStep (Congruent R k) (s.absorb other) (s'.absorb other') := by
  have hstride : other.k / s.k = 2 ^ e := by
    rw [hother.size, h.size, Nat.mul_div_cancel _ hk]
  have hstride' : other'.k / s'.k = 2 ^ e := by
    rw [hother.size', h.size', Nat.mul_div_cancel _ hk]
  have hblocks := hother.levels.occupiedFrom (Nat.mul_pos (Nat.two_pow_pos e) hk) 0
  rw [Sketch.absorb, Sketch.absorb, hstride, hstride']
  refine InStep.notes ?_ (by rw [hother.size, hother.size', h.size, h.size'])
  refine (h.updateAll hR hk hother.buffer).bind fun t t' ht => ?_
  refine (ht.absorbBlocks hk (Nat.two_pow_pos e) hblocks).bind fun u u' hu => ?_
  have hcount : s.n + other.n = s'.n + other'.n := by rw [h.count, hother.count]
  exact .done ⟨hu.size, hu.size', hcount, hu.buffer, hu.levels, hu.least, hu.greatest⟩

/-- Two sketches are brought down to a block size. -/
theorem reduced (hR : Respects R cmp cmp') {k' : ℕ} (hk : Admissible k) (hk' : Admissible k')
    (h : s.Congruent R k s') : InStep (Congruent R (min k k')) (s.reduced k') (s'.reduced k') := by
  rw [Sketch.reduced, Sketch.reduced, h.size, h.size']
  split
  · rename_i hlt
    obtain ⟨e, rfl⟩ := hk'.exists_eq_mul hk (Nat.le_of_lt hlt)
    rw [Nat.min_eq_right (Nat.le_of_lt hlt)]
    have hcleared :
        ({ s with k := k', n := 0, buffer := #[], levels := [] } : Sketch α cmp).Congruent R k'
          ({ s' with k := k', n := 0, buffer := #[], levels := [] } : Sketch β cmp') :=
      ⟨rfl, rfl, rfl, .nil, .nil, h.least, h.greatest⟩
    exact hcleared.absorb hR hk'.pos h
  · rename_i hge
    rw [Nat.min_eq_left (Nat.le_of_not_lt hge)]
    exact .done h

theorem meetExtremes (hR : Respects R cmp cmp') {k' : ℕ} (h : s.Congruent R k s')
    (hother : other.Congruent R k' other') :
    (s.meetExtremes other).Congruent R k (s'.meetExtremes other') where
  size := h.size
  size' := h.size'
  count := h.count
  buffer := h.buffer
  levels := h.levels
  least := rel_elim hother.least h.least fun _ _ hx => hR.lesser h.least hx
  greatest := rel_elim hother.greatest h.greatest fun _ _ hx => hR.greater h.greatest hx

/-- Merging does not fail on either side, and goes on in step. -/
theorem merge (hR : Respects R cmp cmp') {k' : ℕ} (hk : Admissible k) (hk' : Admissible k')
    (h : s.Congruent R k s') (hother : other.Congruent R k' other') :
    ∃ m, Admissible m ∧ ∃ merged merged', s.merge other = .ok merged
      ∧ s'.merge other' = .ok merged' ∧ InStep (Congruent R m) merged merged' := by
  by_cases hn : other.n = 0
  · exact ⟨k, hk, _, _, merge_of_n_eq_zero s hn, merge_of_n_eq_zero s' (hother.count ▸ hn),
      .done h⟩
  · have hmerge := merge_eq_ok (h.size ▸ hk : Admissible s.k) (hother.size ▸ hk') hn
    have hmerge' := merge_eq_ok (h.size' ▸ hk : Admissible s'.k) (hother.size' ▸ hk')
      (hother.count ▸ hn)
    rw [hother.size] at hmerge
    rw [hother.size'] at hmerge'
    have hmin := hk.min hk'
    refine ⟨min k k', hmin, _, _, hmerge, hmerge', ?_⟩
    obtain ⟨e, he⟩ := hmin.exists_eq_mul hk' (Nat.min_le_right k k')
    rw [he] at hother
    refine (h.reduced hR hk hk').bind fun t t' ht => ?_
    refine (ht.absorb hR hmin.pos hother).bind fun u u' hu => ?_
    exact .done (hu.meetExtremes hR hother)

end Congruent

theorem respects_eq (cmp : α → α → Ordering) : Respects Eq cmp cmp where
  lesser hknown hx := by
    rw [rel_eq_iff] at hknown ⊢
    rw [hknown, hx]
  greater hknown hx := by
    rw [rel_eq_iff] at hknown ⊢
    rw [hknown, hx]

/-- An extreme is found whatever the comparison is. -/
theorem respects_true (cmp : α → α → Ordering) (cmp' : β → β → Ordering) :
    Respects (fun _ _ => True) cmp cmp' := by
  have hrel : ∀ {x : Option α} {y : Option β}, x.isSome → y.isSome →
      Option.Rel (fun _ _ => True) x y := by
    rintro (_ | x) (_ | y) hx hy
    · cases hx
    · cases hx
    · cases hy
    · exact .some trivial
  exact ⟨fun _ _ => hrel (isSome_lesser _ _) (isSome_lesser _ _),
    fun _ _ => hrel (isSome_greater _ _) (isSome_greater _ _)⟩

/-- Nothing but the levels tells sketches apart that have the same items outside of them. -/
theorem Congruent.eq_levels {k : ℕ} {s s' : Sketch α cmp} (h : s.Congruent Eq k s') :
    s' = { s with levels := s'.levels } := by
  obtain ⟨hsize, hsize', hcount, hbuffer, -, hleast, hgreatest⟩ := h
  rw [List.forall₂_eq_eq_eq] at hbuffer
  rw [rel_eq_iff] at hleast hgreatest
  rcases s with ⟨k₁, n, buffer, levels, least, greatest⟩
  rcases s' with ⟨k₂, n', buffer', levels', least', greatest'⟩
  dsimp only at hsize hsize' hcount hbuffer hleast hgreatest
  rw [hsize, hsize', hcount, Array.toList_inj.mp hbuffer, hleast, hgreatest]

end Sketch

/-! ### Whole histories -/

section Histories

variable {ρ σ : Type} [RandomSource ρ] [RandomSource σ]

/-- The sketches are congruent for some block size, and their sources recorded the same
draws. -/
def LiveSketch.Congruent (R : α → β → Prop) (s : LiveSketch α cmp (Recorded ρ))
    (s' : LiveSketch β cmp' (Recorded σ)) : Prop :=
  (∃ k, Admissible k ∧ s.sketch.Congruent R k s'.sketch) ∧ s.source.draws = s'.source.draws

/-- Every operation keeps sketches congruent, and the draws that their sources record the
same. -/
theorem keeps_congruent (hR : Sketch.Respects R cmp cmp') :
    Keeps R (fun r r' => r.draws = r'.draws)
      fun (s : LiveSketch α cmp (Recorded ρ)) (s' : LiveSketch β cmp' (Recorded σ)) =>
        s.Congruent R s' where
  create hk hS := ⟨⟨_, hk, Sketch.congruent_empty R _⟩, hS⟩
  update := by
    rintro s s' x x' ⟨⟨k, hk, h⟩, hdraws⟩ hx
    obtain ⟨hsketch, hdraws⟩ := (h.update hR hk.pos hx).run hdraws
    exact ⟨⟨k, hk, hsketch⟩, hdraws⟩
  merge := by
    rintro s s' t t' ⟨⟨k, hk, h⟩, hdraws⟩ ⟨⟨k', hk', hother⟩, -⟩
    obtain ⟨m, hm, merged, merged', hmerge, hmerge', hstep⟩ := h.merge hR hk hk' hother
    obtain ⟨hsketch, hdraws⟩ := hstep.run hdraws
    rw [LiveSketch.merge, LiveSketch.merge, hmerge, hmerge']
    exact .some ⟨⟨m, hm, hsketch⟩, hdraws⟩
  reset := by
    rintro s s' ⟨⟨k, hk, h⟩, hdraws⟩
    refine ⟨⟨k, hk, ?_⟩, hdraws⟩
    rw [LiveSketch.reset, LiveSketch.reset, Sketch.reset, Sketch.reset, h.size, h.size']
    exact Sketch.congruent_empty R k

/-- Histories with related items, from whatever sources, end with congruent sketches after the
same draws. -/
theorem history_congruent (hR : Sketch.Respects R cmp cmp') {ops : List (Operation α ρ)}
    {ops' : List (Operation β σ)}
    (hops : List.Forall₂ (Operation.Rel R fun _ _ => True) ops ops') (slot : ℕ) :
    Option.Rel (fun s s' => ∃ k, Admissible k ∧ s.sketch.Congruent R k s'.sketch)
        (history cmp ops slot) (history cmp' ops' slot)
      ∧ drawn cmp ops slot = drawn cmp' ops' slot := by
  refine rel_and_drawn_eq (fun s s' => ∃ k, Admissible k ∧ s.Congruent R k s')
    ((keeps_congruent hR).history ?_ slot)
  rw [List.forall₂_map_left_iff, List.forall₂_map_right_iff]
  refine hops.imp fun op op' hop => ?_
  -- A new record is empty, whatever the source is.
  cases hop with
  | create slot k => exact .create slot k rfl
  | update slot hx => exact .update slot hx
  | merge slot other => exact .merge slot other
  | reset slot => exact .reset slot

/-- **Neither draws nor items leave a trace in the layout.**  Take two histories that do the
same to the same slots.  If they are about the same items, their sketches differ in nothing
but the items of their levels, whatever sources they draw from.  If they are about different
items, even of different types and compared in different ways, their sketches have the same
sizes, counts and occupied levels.  In both cases each sketch has asked for the same draws,
one after the other. -/
theorem layout_oblivious (cmp : α → α → Ordering) (cmp' : β → β → Ordering) (ρ σ : Type)
    [RandomSource ρ] [RandomSource σ] :
    (∀ (ops : List (Operation α ρ)) (ops' : List (Operation α σ)),
        List.Forall₂ (Operation.Rel Eq fun _ _ => True) ops ops' → ∀ slot,
          Option.Rel (fun s s' => s'.sketch = { s.sketch with levels := s'.sketch.levels }
              ∧ s'.sketch.pattern = s.sketch.pattern)
            (history cmp ops slot) (history cmp ops' slot)
          ∧ drawn cmp ops slot = drawn cmp ops' slot)
      ∧ ∀ (ops : List (Operation α ρ)) (ops' : List (Operation β σ)),
        List.Forall₂ (Operation.Rel (fun _ _ => True) fun _ _ => True) ops ops' → ∀ slot,
          Option.Rel (fun s s' => s'.sketch.k = s.sketch.k ∧ s'.sketch.n = s.sketch.n
              ∧ s'.sketch.buffer.size = s.sketch.buffer.size
              ∧ s'.sketch.pattern = s.sketch.pattern)
            (history cmp ops slot) (history cmp' ops' slot)
          ∧ drawn cmp ops slot = drawn cmp' ops' slot := by
  refine ⟨fun ops ops' hops slot => ?_, fun ops ops' hops slot => ?_⟩
  · obtain ⟨hrel, hdrawn⟩ := history_congruent (Sketch.respects_eq cmp) hops slot
    refine ⟨rel_mono hrel ?_, hdrawn⟩
    rintro s s' ⟨k, hk, h⟩
    exact ⟨h.eq_levels, (h.levels.pattern_eq hk.pos).symm⟩
  · obtain ⟨hrel, hdrawn⟩ := history_congruent (Sketch.respects_true cmp cmp') hops slot
    refine ⟨rel_mono hrel ?_, hdrawn⟩
    rintro s s' ⟨k, hk, h⟩
    exact ⟨h.size'.trans h.size.symm, h.count.symm, h.size_buffer.symm,
      (h.levels.pattern_eq hk.pos).symm⟩

end Histories

/-- Two sketches of block sizes `2` and `4` see some items, and the second one is merged into
the first one. -/
def mergedStreams {α ρ : Type} (source : ρ) (item : ℕ → α) : List (Operation α ρ) :=
  [.create 0 2 source, .create 1 4 source] ++ (List.range 5).map (fun i => .update 0 (item i))
    ++ (List.range 9).map (fun i => .update 1 (item i)) ++ [.merge 0 1]

theorem rel_mergedStreams {ρ σ : Type} {item : ℕ → α} {item' : ℕ → β}
    (hitem : ∀ i, R (item i) (item' i)) (source : ρ) (source' : σ) :
    List.Forall₂ (Operation.Rel R fun _ _ => True) (mergedStreams source item)
      (mergedStreams source' item') := by
  have hupdates : ∀ slot count, List.Forall₂ (Operation.Rel R fun (_ : ρ) (_ : σ) => True)
      ((List.range count).map fun i => .update slot (item i))
      ((List.range count).map fun i => .update slot (item' i)) := by
    intro slot count
    rw [List.forall₂_map_left_iff, List.forall₂_map_right_iff, List.forall₂_same]
    exact fun i _ => .update slot (hitem i)
  have hcreates : List.Forall₂ (Operation.Rel R fun (_ : ρ) (_ : σ) => True)
      [.create 0 2 source, .create 1 4 source] [.create 0 2 source', .create 1 4 source'] :=
    .cons (.create 0 2 trivial) (.cons (.create 1 4 trivial) .nil)
  exact List.rel_append (List.rel_append (List.rel_append hcreates (hupdates 0 5)) (hupdates 1 9))
    (.cons (.merge 0 1) .nil)

/-- From other draws, the same items end in a sketch that differs in its levels only; in the
opposite order and with ties, they still make the same draws. -/
theorem layout_oblivious_mergedStreams :
    (∃ s s', history compare (mergedStreams (XorShift.ofSeed 1) id) 0 = some s
        ∧ history compare (mergedStreams (Replay.ofScript [0]) id) 0 = some s'
        ∧ s'.sketch = { s.sketch with levels := s'.sketch.levels })
      ∧ drawn compare (mergedStreams (XorShift.ofSeed 1) id) 0
          = drawn (reversed compare) (mergedStreams (Replay.ofScript [0]) (· / 2)) 0 := by
  have hsome : ∃ s, history compare (mergedStreams (XorShift.ofSeed 1) id) 0 = some s :=
    Option.isSome_iff_exists.mp rfl
  obtain ⟨s, hs⟩ := hsome
  obtain ⟨hsame, hshape⟩ := @layout_oblivious ℕ ℕ compare (reversed compare) XorShift Replay _ _
  obtain ⟨hrel, -⟩ := hsame _ _ (rel_mergedStreams (fun _ => rfl) _ _) 0
  obtain ⟨-, hdrawn⟩ := hshape _ _ (rel_mergedStreams (fun _ => trivial) _ _) 0
  rw [hs] at hrel
  refine ⟨?_, hdrawn⟩
  revert hrel
  generalize history compare (mergedStreams (Replay.ofScript [0]) id) 0 = out
  rintro ⟨heq, -⟩
  exact ⟨s, _, hs, rfl, heq⟩

end QuantileSketch
