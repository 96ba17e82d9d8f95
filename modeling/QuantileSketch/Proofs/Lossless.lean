/-
Merging without carries.

If two buffers together leave room in one, and no level is occupied on both sides, merging
compacts nothing.  The items of one buffer are put after those of the other, every block
finds its level free, and nothing is drawn:

* `Randomized.Certain` — nothing is drawn for a value;
* `Levels.overlay` — levels put over each other, which is where blocks go that find their
  levels free (`Levels.carryAt_of_free`, `Sketch.certain_absorbBlocks`);
* `Sketch.beside` — two sketches side by side (`Sketch.certain_merge`), whose histograms add
  up (`Sketch.Sound.histogram_beside`);
* `Sketch.Reachable.merge_without_carries` — all of this for reachable sketches, and what
  becomes of a sketch that is merged into an empty one;
* `Sketch.merge_ofBelow_lowers` — a sketch with extremes that do not span is not reproduced.

Design notes: levels below a block are padded by the overlay with as many free ones as are
missing, so a block is overlaid together with the levels below it, and the blocks of a sketch
one after the other come to its levels as a whole.
-/
import QuantileSketch.Proofs.Extremes
import QuantileSketch.Proofs.ReadExtremes

open QuantileSketch.Randomized

namespace QuantileSketch

variable {α β γ : Type} {cmp : α → α → Ordering}

/-! ### Values for which nothing is drawn -/

namespace Randomized

/-- Nothing is drawn, and the value is `v`. -/
def Certain (x : Randomized β) (v : β) : Prop := ∃ events, x = notes events (done v)

theorem certain_done (v : β) : (done v).Certain v := ⟨[], rfl⟩

theorem notes_append (events events' : List Event) (x : Randomized β) :
    notes (events ++ events') x = notes events (notes events' x) := by
  induction events with
  | nil => rfl
  | cons event events ih => exact congrArg (note event) ih

theorem notes_bind (events : List Event) (x : Randomized β) (f : β → Randomized γ) :
    (notes events x).bind f = notes events (x.bind f) := by
  induction events with
  | nil => rfl
  | cons event events ih => exact congrArg (note event) ih

theorem Certain.notes {x : Randomized β} {v : β} (h : x.Certain v) (events : List Event) :
    (notes events x).Certain v := by
  obtain ⟨events', rfl⟩ := h
  exact ⟨events ++ events', (notes_append events events' (done v)).symm⟩

theorem Certain.bind {x : Randomized β} {f : β → Randomized γ} {v : β} {w : γ}
    (hx : x.Certain v) (hf : (f v).Certain w) : (x.bind f).Certain w := by
  obtain ⟨events, rfl⟩ := hx
  rw [notes_bind]
  exact hf.notes events

theorem Certain.mem {x : Randomized β} {v : β} (h : x.Certain v) : v ∈ x := by
  obtain ⟨events, rfl⟩ := h
  exact mem_notes.mpr rfl

end Randomized

/-! ### Levels put over each other -/

namespace Levels

/-- Level by level, the items of `xs` followed by those of `ys`. -/
def overlay : (xs ys : List (List α)) → List (List α)
  | [], ys => ys
  | x :: xs, [] => x :: xs
  | x :: xs, y :: ys => (x ++ y) :: overlay xs ys

@[simp] theorem overlay_nil (xs : List (List α)) : overlay xs [] = xs := by
  cases xs <;> rfl

theorem length_overlay (xs ys : List (List α)) :
    (overlay xs ys).length = max xs.length ys.length := by
  induction xs generalizing ys with
  | nil => simp [overlay]
  | cons x xs ih =>
    cases ys with
    | nil => simp
    | cons y ys =>
      rw [overlay, List.length_cons, ih, List.length_cons, List.length_cons]
      omega

/-- Each level of the overlay holds what is at that level on both sides. -/
theorem getD_overlay (xs ys : List (List α)) (i : ℕ) :
    (overlay xs ys)[i]?.getD [] = xs[i]?.getD [] ++ ys[i]?.getD [] := by
  induction xs generalizing ys i with
  | nil => simp [overlay]
  | cons x xs ih =>
    cases ys with
    | nil => simp
    | cons y ys =>
      cases i with
      | zero => rfl
      | succ i => exact ih ys i

theorem overlay_assoc (xs ys zs : List (List α)) :
    overlay (overlay xs ys) zs = overlay xs (overlay ys zs) := by
  induction xs generalizing ys zs with
  | nil => rfl
  | cons x xs ih =>
    cases ys with
    | nil => rfl
    | cons y ys =>
      cases zs with
      | nil => simp
      | cons z zs =>
        rw [overlay, overlay, overlay, overlay, ih, List.append_assoc]

/-- Free levels over levels that are there anyway make no difference. -/
theorem overlay_replicate {i : ℕ} {xs : List (List α)} (h : i ≤ xs.length) :
    overlay xs (List.replicate i []) = xs := by
  induction xs generalizing i with
  | nil =>
    obtain rfl := Nat.le_zero.mp h
    rfl
  | cons x xs ih =>
    cases i with
    | zero => rfl
    | succ i =>
      rw [List.replicate_succ, overlay, List.append_nil, ih (Nat.le_of_succ_le_succ h)]

/-- A block and the levels above it. -/
theorem overlay_block (i : ℕ) (y : List α) (ys : List (List α)) :
    overlay (List.replicate i [] ++ [y]) (List.replicate (i + 1) [] ++ ys)
      = List.replicate i [] ++ y :: ys := by
  induction i with
  | zero => simp [overlay]
  | succ i ih =>
    rw [List.replicate_succ, List.replicate_succ (n := i + 1), List.cons_append, List.cons_append,
      overlay, ih, List.nil_append, List.cons_append]

/-- A sum over the levels adds up over both sides. -/
theorem weigh_overlay {f : List α → ℕ} (hf : ∀ x y, f (x ++ y) = f x + f y)
    (xs ys : List (List α)) : weigh f (overlay xs ys) = weigh f xs + weigh f ys := by
  induction xs generalizing ys with
  | nil => simp [overlay, weigh]
  | cons x xs ih =>
    cases ys with
    | nil => simp [weigh]
    | cons y ys =>
      rw [overlay, weigh, weigh, weigh, ih, hf]
      ring

/-- A block that finds its level free is put there, and nothing is drawn. -/
theorem carryAt_of_free {start : ℕ} {levels : List (List α)} (h : levels[start]?.getD [] = [])
    (block : List α) :
    carryAt cmp start levels block
      = .done (overlay levels (List.replicate start [] ++ [block])) := by
  induction start generalizing levels with
  | zero =>
    cases levels with
    | nil => rfl
    | cons level levels =>
      obtain rfl : level = [] := h
      rw [carryAt, carry, List.isEmpty_nil, if_pos rfl, List.replicate_zero, List.nil_append,
        overlay, overlay_nil, List.nil_append]
  | succ start ih =>
    cases levels with
    | nil =>
      rw [carryAt, ih rfl]
      rfl
    | cons level levels =>
      rw [carryAt, ih h, done_bind, List.replicate_succ, List.cons_append, overlay,
        List.append_nil]

/-- The block at a level, if there is one. -/
theorem block?_eq_some_iff {levels : List (List α)} {i : ℕ} {block : List α} :
    block? levels i = some block ↔ levels[i]?.getD [] = block ∧ block ≠ [] := by
  rw [block?]
  cases levels[i]? with
  | none =>
    refine iff_of_false (by simp) ?_
    rintro ⟨rfl, hne⟩
    exact hne rfl
  | some level =>
    rw [Option.filter_eq_some_iff, Option.some_inj, Option.getD_some]
    refine and_congr_right ?_
    rintro rfl
    simp

end Levels

namespace Sketch

/-! ### Two sketches side by side -/

/-- The sketch with items added to its buffer. -/
def pushAll (s : Sketch α cmp) (xs : List α) : Sketch α cmp :=
  { s with
    n := s.n + xs.length
    buffer := s.buffer ++ xs
    least := xs.foldl (lesser cmp) s.least
    greatest := xs.foldl (greater cmp) s.greatest }

/-- Items for which there is room are only added to the buffer. -/
theorem updateAll_of_room {s : Sketch α cmp} {xs : List α}
    (h : s.buffer.size + xs.length < 2 * s.k) : s.updateAll xs = .done (s.pushAll xs) := by
  induction xs generalizing s with
  | nil => simp [updateAll, pushAll]
  | cons x xs ih =>
    rw [List.length_cons] at h
    have hsize : (s.push x).buffer.size = s.buffer.size + 1 := Array.size_push _
    have hroom : (s.push x).buffer.size + xs.length < 2 * (s.push x).k := by
      rw [hsize]
      show _ < 2 * s.k
      omega
    have hupdate : s.update x = .done (s.push x) := by
      rw [update, if_neg]
      omega
    rw [updateAll, hupdate, done_bind, ih hroom]
    simp [pushAll, push, Nat.add_assoc, Nat.add_comm 1]

/-- Blocks that find their levels free are put there, and nothing is drawn. -/
theorem certain_absorbBlocks {s : Sketch α cmp} {i : ℕ} {levels : List (List α)}
    (hfree : ∀ j, levels[j]?.getD [] ≠ [] → s.levels[i + j]?.getD [] = [])
    (htop : levels.getLast? ≠ some []) (hi : levels = [] → i ≤ s.levels.length) :
    (s.absorbBlocks 1 0 (Levels.occupiedFrom i levels)).Certain
      { s with levels := Levels.overlay s.levels (List.replicate i [] ++ levels) } := by
  induction levels generalizing s i with
  | nil =>
    rw [List.append_nil, Levels.overlay_replicate (hi rfl)]
    exact certain_done s
  | cons level levels ih =>
    have hnext : ∀ j, levels[j]?.getD [] ≠ [] → s.levels[i + 1 + j]?.getD [] = [] := by
      intro j hj
      rw [Nat.add_assoc, Nat.add_comm 1]
      exact hfree (j + 1) hj
    rw [List.getLast?_cons] at htop
    have htop' : levels.getLast? ≠ some [] := by
      intro hlast
      rw [hlast] at htop
      exact htop rfl
    rw [Levels.occupiedFrom]
    split
    · -- A free level is passed; there are levels above it, since the highest is not free.
      rename_i hempty
      obtain rfl := List.isEmpty_iff.mp hempty
      have hrest := ih hnext htop' (by rintro rfl; exact absurd rfl htop)
      rwa [List.replicate_succ', List.append_assoc] at hrest
    · rename_i hne
      have hlevel : s.levels[i]?.getD [] = [] := hfree 0 (by simpa using hne)
      have hsettle : (s.settle (i + 0) level).Certain
          { s with levels := Levels.overlay s.levels (List.replicate i [] ++ [level]) } := by
        rw [settle, Nat.add_zero, Levels.carryAt_of_free hlevel, done_bind]
        exact (certain_done _).notes _
      have hrest := @ih
        { s with levels := Levels.overlay s.levels (List.replicate i [] ++ [level]) } (i + 1) ?_
        htop' ?_
      · rw [Levels.overlay_assoc, Levels.overlay_block] at hrest
        exact hsettle.bind hrest
      · -- The block is below the levels that are still to come.
        intro j hj
        rw [Levels.getD_overlay, hnext j hj, List.nil_append, List.getElem?_eq_none]
        · rfl
        · rw [List.length_append, List.length_replicate, List.length_singleton]
          omega
      · rintro -
        rw [Levels.length_overlay, List.length_append, List.length_replicate,
          List.length_singleton]
        omega

/-- Two sketches side by side: one buffer after the other, and the blocks of both at their
levels. -/
def beside (s other : Sketch α cmp) : Sketch α cmp :=
  { s.pushAll other.buffer.toList with
    n := s.n + other.n
    levels := Levels.overlay s.levels other.levels }.meetExtremes other

/-- There is room for both buffers in one, and no level is occupied on both sides. -/
structure Separate (s other : Sketch α cmp) : Prop where
  size : s.k = other.k
  room : s.buffer.size + other.buffer.size < 2 * s.k
  free : ∀ i : ℕ, other.levels[i]?.getD [] ≠ [] → s.levels[i]?.getD [] = []

theorem Sound.separate {s other : Sketch α cmp} (hs : s.Sound) (hother : other.Sound)
    (hk : s.k = other.k) (hroom : bufferCount s.k s.n + bufferCount other.k other.n < 2 * s.k)
    (hdisjoint : occupancy s.k s.n &&& occupancy other.k other.n = 0) : Separate s other where
  size := hk
  room := by rwa [hs.buffer, hother.buffer]
  free i hi := by
    rw [← hs.standsFor.pattern_eq, ← hother.standsFor.pattern_eq] at hdisjoint
    have hbit := congrArg (Nat.testBit · i) hdisjoint
    simp only [Nat.testBit_and, Nat.zero_testBit] at hbit
    rw [pattern, pattern, Levels.testBit_pattern, Levels.testBit_pattern,
      List.isEmpty_eq_false_iff.mpr hi, Bool.not_false, Bool.and_true, Bool.not_eq_false'] at hbit
    exact List.isEmpty_iff.mp hbit

theorem Separate.certain_absorb {s other : Sketch α cmp} (h : Separate s other) (hk : 0 < s.k)
    (htop : other.levels.getLast? ≠ some []) :
    (s.absorb other).Certain
      { s.pushAll other.buffer.toList with
        n := s.n + other.n
        levels := Levels.overlay s.levels other.levels } := by
  have hstride : other.k / s.k = 1 := by rw [← h.size, Nat.div_self hk]
  rw [absorb, hstride, updateAll_of_room (by simpa using h.room)]
  refine Certain.notes ?_ _
  exact (certain_absorbBlocks (s := s.pushAll other.buffer.toList)
    (fun j hj => by rw [Nat.zero_add]; exact h.free j hj) htop (fun _ => Nat.zero_le _)).bind
    (certain_done _)

/-- An empty sketch beside another one adds nothing. -/
theorem beside_empty (s : Sketch α cmp) (k : ℕ) : s.beside (empty k) = s := by
  simp [beside, pushAll, empty, meetExtremes]

theorem Separate.certain_merge {s other : Sketch α cmp} (h : Separate s other) (hs : s.Sound)
    (hother : other.Sound) :
    ∃ merged, s.merge other = .ok merged ∧ merged.Certain (s.beside other) := by
  by_cases hn : other.n = 0
  · refine ⟨_, merge_of_n_eq_zero s hn, ?_⟩
    rw [hother.eq_empty hn, beside_empty]
    exact certain_done s
  · refine ⟨_, merge_eq_ok hs.size hother.size hn, ?_⟩
    have hreduced : s.reduced other.k = .done s := by
      rw [reduced, if_neg]
      exact fun hlt => absurd h.size hlt.ne'
    rw [hreduced, done_bind]
    exact (h.certain_absorb hs.size.pos hother.standsFor.regular.top).bind (certain_done _)

/-- The weights of two sketches side by side add up. -/
theorem weightOf_beside (s other : Sketch α cmp) (P : α → Bool) :
    (s.beside other).weightOf P = s.weightOf P + other.weightOf P := by
  have hbuffer : (s.beside other).buffer.toList = s.buffer.toList ++ other.buffer.toList := by
    show (s.buffer ++ other.buffer.toList).toList = _
    simp
  rw [weightOf_eq, weightOf_eq, weightOf_eq, hbuffer, List.countP_append]
  show _ + Levels.weigh _ (Levels.overlay s.levels other.levels) = _
  rw [Levels.weigh_overlay fun x y => List.countP_append]
  omega

theorem Sound.histogram_beside [Std.TransCmp cmp] {s other : Sketch α cmp} (hs : s.Sound)
    (hother : other.Sound) (hbeside : (s.beside other).Sound) {splits : List α}
    (hsplits : checkSplitPoints cmp splits = .ok ()) :
    ∃ counts counts', s.histogram splits = .ok counts ∧ other.histogram splits = .ok counts'
      ∧ (s.beside other).histogram splits = .ok (addCounts counts counts') := by
  refine ⟨_, _, hs.histogram_eq hsplits, hother.histogram_eq hsplits, ?_⟩
  rw [hbeside.histogram_eq hsplits, Snapshot.addCounts_map]
  simp only [weightOf_beside]

/-- Where levels are not occupied on both sides, the blocks of the overlay are those of
both. -/
theorem Separate.block?_beside {s other : Sketch α cmp} (h : Separate s other) (i : ℕ)
    (block : List α) :
    Levels.block? (s.beside other).levels i = some block ↔
      Levels.block? s.levels i = some block ∨ Levels.block? other.levels i = some block := by
  have hlevel : (s.beside other).levels[i]?.getD []
      = s.levels[i]?.getD [] ++ other.levels[i]?.getD [] :=
    Levels.getD_overlay s.levels other.levels i
  rw [Levels.block?_eq_some_iff, Levels.block?_eq_some_iff, Levels.block?_eq_some_iff, hlevel]
  by_cases hi : other.levels[i]?.getD [] = []
  · rw [hi, List.append_nil]
    refine (or_iff_left ?_).symm
    rintro ⟨rfl, hne⟩
    exact hne rfl
  · rw [h.free i hi, List.nil_append]
    refine (or_iff_right ?_).symm
    rintro ⟨rfl, hne⟩
    exact hne rfl

/-! ### Merging into an empty sketch -/

/-- An empty sketch is brought to another block size without anything being drawn. -/
theorem certain_reduced_empty (k : ℕ) {k' : ℕ} (h : k' ≤ k) :
    ((empty k : Sketch α cmp).reduced k').Certain (empty k') := by
  rw [reduced]
  split
  · exact (certain_done _).notes _
  · rename_i hge
    obtain rfl : k = k' := Nat.le_antisymm (Nat.not_lt.mp hge) h
    exact certain_done _

theorem separate_empty {other : Sketch α cmp} (hother : other.Sound) :
    Separate (empty other.k) other where
  size := rfl
  room := by
    rw [show (empty other.k : Sketch α cmp).buffer.size = 0 from rfl, Nat.zero_add]
    exact hother.standsFor.room
  free _ _ := rfl

/-- All of a sketch beside an empty one is its own, but perhaps for the extremes. -/
theorem empty_beside (other : Sketch α cmp) :
    (empty other.k).beside other
      = { other with
          least := ((empty other.k).beside other).least
          greatest := ((empty other.k).beside other).greatest } := by
  simp [beside, pushAll, empty, meetExtremes, Levels.overlay]

/-- What is known of an item and a list is tied with the item exactly if nothing of the list
is beyond it. -/
theorem rel_lesser_iff (cmp : α → α → Ordering) [Std.TransCmp cmp] (x : α) (xs : List α) :
    Option.Rel (fun y x => cmp y x = .eq) (lesser cmp (xs.foldl (lesser cmp) none) x) (some x)
      ↔ ∀ y ∈ xs, (cmp x y).isLE := by
  have hnone : IsLeastOf cmp none ([] : List α) := rfl
  have hleast : IsLeastOf cmp (lesser cmp (xs.foldl (lesser cmp) none) x) (xs ++ [x]) :=
    (hnone.foldl_lesser xs).elim_lesser (isLeastOf_singleton x)
  have hsome : (lesser cmp (xs.foldl (lesser cmp) none) x).isSome := isSome_lesser _ x
  obtain ⟨z, hz⟩ := Option.isSome_iff_exists.mp hsome
  rw [hz] at hleast ⊢
  obtain ⟨hmem, hle⟩ := hleast
  obtain ⟨hxs, hx⟩ := List.forall_mem_append.mp hle
  constructor
  · rintro (htie | _) y hy
    have hxz : (cmp x z).isLE := Ordering.isLE_of_eq_eq (Std.OrientedCmp.eq_symm htie)
    exact Std.TransCmp.isLE_trans hxz (hxs y hy)
  · intro h
    refine .some (Std.OrientedCmp.isLE_antisymm (hx x List.mem_cons_self) ?_)
    rcases List.mem_append.mp hmem with hz | hz
    · exact h z hz
    · rw [List.mem_singleton.mp hz]
      exact Std.ReflCmp.isLE_rfl

/-- Both sketches have the same extremes, up to ties. -/
def TiedExtremes (s other : Sketch α cmp) : Prop :=
  Option.Rel (fun x y => cmp x y = .eq) s.least other.least
    ∧ Option.Rel (fun x y => cmp x y = .eq) s.greatest other.greatest

/-- A sketch beside an empty one keeps its extremes exactly if nothing in its buffer is
beyond them. -/
theorem Sound.tiedExtremes_iff [Std.TransCmp cmp] {other : Sketch α cmp} (h : other.Sound)
    (hn : 0 < other.n) :
    TiedExtremes ((Sketch.empty other.k).beside other) other ↔
      ∀ y ∈ other.buffer.toList, (∀ x ∈ other.least, (cmp x y).isLE)
        ∧ ∀ x ∈ other.greatest, (cmp y x).isLE := by
  obtain ⟨least, greatest, hleast, hgreatest⟩ := h.exists_extremes hn
  have hlower := rel_lesser_iff cmp least other.buffer.toList
  have hupper := rel_lesser_iff (reversed cmp) greatest other.buffer.toList
  have hties : ∀ x y, reversed cmp x y = .eq ↔ cmp x y = .eq := fun x y => Std.OrientedCmp.eq_comm
  simp only [hties] at hupper
  have hextremes : TiedExtremes ((Sketch.empty other.k).beside other) other ↔
      Option.Rel (fun x y => cmp x y = .eq)
          (lesser cmp (other.buffer.toList.foldl (lesser cmp) none) least) (some least)
        ∧ Option.Rel (fun x y => cmp x y = .eq)
          (lesser (reversed cmp) (other.buffer.toList.foldl (lesser (reversed cmp)) none) greatest)
          (some greatest) := by
    rw [TiedExtremes, beside, meetExtremes, hleast, hgreatest, ← greater_eq]
    rfl
  rw [hextremes, hlower, hupper, hleast, hgreatest]
  simp only [Option.mem_some_iff, forall_eq', reversed, ← forall₂_and]

/-- **A merge without carries loses nothing.**  If two sketches have the same block size, there
is room for both buffers in one, and no level is occupied on both sides, merging them draws
nothing: one buffer is put after the other, the blocks stay as they are, and histograms add
up.  A sketch that is merged into an empty one of no smaller block size comes out as it was;
its extremes do, up to ties, exactly if nothing in its buffer is beyond them, as is the case
for every sketch that came about from a stream. -/
theorem Reachable.merge_without_carries [Std.TransCmp cmp] {s other : Sketch α cmp}
    (hs : s.Reachable) (hother : other.Reachable) :
    (s.k = other.k → bufferCount s.k s.n + bufferCount other.k other.n < 2 * s.k →
      occupancy s.k s.n &&& occupancy other.k other.n = 0 →
      ∃ merged s', s.merge other = .ok merged ∧ merged.Certain s'
        ∧ s'.k = s.k ∧ s'.n = s.n + other.n ∧ s'.buffer = s.buffer ++ other.buffer
        ∧ (∀ i block, Levels.block? s'.levels i = some block ↔
            Levels.block? s.levels i = some block ∨ Levels.block? other.levels i = some block)
        ∧ ∀ splits, checkSplitPoints cmp splits = .ok () →
          ∃ counts counts', s.histogram splits = .ok counts ∧ other.histogram splits = .ok counts'
            ∧ s'.histogram splits = .ok (addCounts counts counts'))
      ∧ (s.n = 0 → 0 < other.n → other.k ≤ s.k →
        ∃ merged s', s.merge other = .ok merged ∧ merged.Certain s'
          ∧ s' = { other with least := s'.least, greatest := s'.greatest }
          ∧ (TiedExtremes s' other ↔
              ∀ y ∈ other.buffer.toList, (∀ x ∈ other.least, (cmp x y).isLE)
                ∧ ∀ x ∈ other.greatest, (cmp y x).isLE)
          ∧ ∀ xs, Summarizes other xs → TiedExtremes s' other) := by
  have hsound := hs.sound
  have hsound' := hother.sound
  refine ⟨fun hk hroom hdisjoint => ?_, fun hn hn' hk => ?_⟩
  · have hseparate := hsound.separate hsound' hk hroom hdisjoint
    obtain ⟨merged, hmerge, hcertain⟩ := hseparate.certain_merge hsound hsound'
    have hbeside : (s.beside other).Sound := hsound.merge hsound' hmerge hcertain.mem
    refine ⟨merged, s.beside other, hmerge, hcertain, rfl, rfl, ?_, hseparate.block?_beside,
      fun splits hsplits => hsound.histogram_beside hsound' hbeside hsplits⟩
    show s.buffer ++ other.buffer.toList = s.buffer ++ other.buffer
    exact Array.toList_inj.mp (by simp)
  · -- The empty sketch gets the block size of the other one, and is then beside it.
    have hseparate := separate_empty hsound'
    have htied := hsound'.tiedExtremes_iff hn'
    rw [hsound.eq_empty hn]
    refine ⟨_, (empty other.k).beside other, merge_eq_ok hsound.size hsound'.size hn'.ne', ?_,
      empty_beside other, htied, fun xs hxs => htied.mpr fun y hy => ?_⟩
    · exact (certain_reduced_empty s.k hk).bind
        ((hseparate.certain_absorb hsound'.size.pos hsound'.standsFor.regular.top).bind
          (certain_done _))
    · have hheld : y ∈ other.held := mem_held.mpr (.inl hy)
      have hspans := hxs.bounds.spans
      exact ⟨fun x hx => hspans.least x hx y hheld, fun x hx => hspans.greatest x hx y hheld⟩

/-- A sketch of one item. -/
def afterOne : Sketch ℕ compare where
  k := 2
  n := 1
  buffer := #[7]
  least := some 7
  greatest := some 7

theorem reachable_afterOne : afterOne.Reachable :=
  (Reachable.ofSize (k := 2) rfl).update (mem_update.mpr (.inl ⟨by decide, rfl⟩))

theorem Reachable.merge_without_carries_afterOne :
    afterOne.Reachable ∧ afterFive.Reachable
      ∧ bufferCount 2 1 + bufferCount 2 5 < 2 * 2 ∧ occupancy 2 1 &&& occupancy 2 5 = 0
      ∧ (∃ merged s', afterOne.merge afterFive = .ok merged ∧ merged.Certain s'
        ∧ s'.n = 6 ∧ s'.buffer = #[7, 5] ∧ Levels.block? s'.levels 0 = some [1, 3])
      ∧ ∃ merged s', (empty 4).merge afterFive = .ok merged ∧ merged.Certain s'
        ∧ s'.k = 2 ∧ s'.buffer = #[5] ∧ s'.levels = [[1, 3]] ∧ TiedExtremes s' afterFive := by
  have hroom : bufferCount 2 1 + bufferCount 2 5 < 2 * 2 := by decide
  have hdisjoint : occupancy 2 1 &&& occupancy 2 5 = 0 := by decide
  obtain ⟨hseparate, -⟩ :=
    Reachable.merge_without_carries reachable_afterOne reachable_afterFive
  obtain ⟨merged, s', hmerge, hcertain, -, hn, hbuffer, hblocks, -⟩ := hseparate rfl hroom hdisjoint
  have hempty : (empty 4 : Sketch ℕ compare).Reachable := .ofSize (k := 4) rfl
  obtain ⟨-, hinto⟩ := Reachable.merge_without_carries hempty reachable_afterFive
  obtain ⟨merged', t, hmerge', hcertain', ht, -, htied⟩ := hinto rfl (by decide) (by decide)
  refine ⟨reachable_afterOne, reachable_afterFive, hroom, hdisjoint,
    ⟨merged, s', hmerge, hcertain, hn, hbuffer, (hblocks 0 [1, 3]).mpr (.inr rfl)⟩,
    merged', t, hmerge', hcertain', ?_, ?_, ?_, htied _ summarizes_afterFive⟩
  · rw [ht]
    rfl
  · rw [ht]
    rfl
  · rw [ht]
    rfl

/-- Merging a sketch whose least item is above what it holds into an empty one gives another
least item. -/
theorem merge_ofBelow_lowers :
    decode? imageBelow = .ok ofBelow ∧ ofBelow.Reachable
      ∧ (empty 2 : Sketch Int64 compare).Reachable ∧ 0 < ofBelow.n
      ∧ ∃ merged s', (empty 2).merge ofBelow = .ok merged ∧ merged.Certain s'
        ∧ s'.least = some 3 ∧ ofBelow.least = some 10 ∧ ¬ TiedExtremes s' ofBelow := by
  have hdecode : decode? imageBelow = .ok ofBelow := rfl
  have hn : 0 < ofBelow.n := Nat.one_pos
  have hsound : ofBelow.Sound := sound_of_decode? hdecode
  obtain ⟨merged, hmerge, hcertain⟩ :=
    (separate_empty hsound).certain_merge (Sound.empty hsound.size) hsound
  refine ⟨hdecode, .decode hdecode, .ofSize (k := 2) rfl, hn, merged, _, hmerge, hcertain, rfl, rfl,
    fun htied => ?_⟩
  have hbeyond := ((hsound.tiedExtremes_iff hn).mp htied 3 List.mem_cons_self).1 10 rfl
  exact absurd hbeyond (by decide)

end Sketch

end QuantileSketch
