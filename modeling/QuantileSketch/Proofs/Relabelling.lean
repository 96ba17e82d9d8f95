/-
Only the comparison decides what becomes of items.

A sketch copies its items and compares them, and nothing else is done with them.  Let a map
take items to items that compare in the same way, be they of the same type or of another one.
Then a sketch of the images goes on as the sketch of the items does, and holds their images:

* `Randomized.Maps` — the same draws and events, and the image of the value;
* `sortBy_map`, `mergeBy_map`, `everyNth_map` — what is done to buffers and blocks;
* `Sketch.map`, `Sketch.maps_update`, `Sketch.maps_merge` — sketches, one step of them;
* `history_map` — whole histories.

Design notes: nothing is asked of the comparisons themselves, and the map may send tied items
to the same one.  What holds of the map is a variable, which every lemma that compares takes
as its first argument.
-/
import QuantileSketch.Proofs.Histories
import QuantileSketch.Proofs.Lockstep

open QuantileSketch.Randomized

namespace QuantileSketch

variable {α β : Type} {cmp : α → α → Ordering} {cmp' : β → β → Ordering} {f : α → β}

namespace Randomized

variable {γ δ γ' δ' : Type}

/-- The second value asks for the same draws and notes the same events as the first one, and
for the same answers comes to the image of what that comes to. -/
abbrev Maps (g : γ → δ) : Randomized γ → Randomized δ → Prop := Related fun v w => w = g v

theorem Maps.bind {g : γ → δ} {g' : γ' → δ'} {x : Randomized γ} {y : Randomized δ}
    {next : γ → Randomized γ'} {next' : δ → Randomized δ'} (h : Maps g x y)
    (hnext : ∀ v, Maps g' (next v) (next' (g v))) : Maps g' (x.bind next) (y.bind next') := by
  refine Related.bind h ?_
  rintro v _ rfl
  exact hnext v

end Randomized

/-! ### Lists -/

theorem everyNth_map (stride offset : ℕ) (xs : List α) :
    everyNth stride offset (xs.map f) = (everyNth stride offset xs).map f := by
  rw [everyNth_eq, everyNth_eq]
  suffices h : ∀ start, everyNthFrom stride offset start (xs.map f)
      = (everyNthFrom stride offset start xs).map f from h 0
  induction xs with
  | nil =>
    intro start
    rfl
  | cons x xs ih =>
    intro start
    rw [List.map_cons, everyNthFrom, everyNthFrom, ih]
    split
    · rfl
    · rfl

theorem maps_halve (block : List α) : Maps (List.map f) (halve block) (halve (block.map f)) :=
  .draw fun offset => .done (everyNth_map 2 offset block)

theorem Sketch.maps_thin (stride : ℕ) (block : List α) :
    Maps (List.map f) (Sketch.thin stride block) (Sketch.thin stride (block.map f)) := by
  rw [Sketch.thin, Sketch.thin]
  split
  · exact .draw fun offset => .done (everyNth_map stride offset block)
  · exact .done rfl

section Comparison

variable (hf : ∀ x y, cmp' (f x) (f y) = cmp x y)
include hf

theorem sortBy_map (xs : List α) : sortBy cmp' (xs.map f) = (sortBy cmp xs).map f := by
  refine (List.map_mergeSort fun x _ y _ => ?_).symm
  rw [hf]

theorem mergeBy_map (xs ys : List α) :
    mergeBy cmp' (xs.map f) (ys.map f) = (mergeBy cmp xs ys).map f := by
  refine (List.map_merge fun x _ y _ => ?_).symm
  rw [hf]

/-! ### Levels -/

namespace Levels

theorem maps_carry (levels : List (List α)) (block : List α) :
    Maps (List.map (List.map f)) (carry cmp levels block)
      (carry cmp' (levels.map (List.map f)) (block.map f)) := by
  induction levels generalizing block with
  | nil => exact .done rfl
  | cons resident levels ih =>
    rw [List.map_cons, carry, carry, List.isEmpty_map]
    split
    · exact .done rfl
    · rw [mergeBy_map hf]
      exact (maps_halve _).bind fun half => (ih half).bind fun out => .done rfl

theorem maps_carryAt (start : ℕ) (levels : List (List α)) (block : List α) :
    Maps (List.map (List.map f)) (carryAt cmp start levels block)
      (carryAt cmp' start (levels.map (List.map f)) (block.map f)) := by
  induction start generalizing levels with
  | zero => exact maps_carry hf levels block
  | succ start ih =>
    cases levels with
    | nil => exact (ih []).bind fun out => .done rfl
    | cons level levels => exact (ih levels).bind fun out => .done rfl

end Levels

end Comparison

namespace Levels

theorem pattern_map (levels : List (List α)) :
    pattern (levels.map (List.map f)) = pattern levels := by
  induction levels with
  | nil => rfl
  | cons level levels ih => rw [List.map_cons, pattern, pattern, ih, List.isEmpty_map]

theorem occupied_map (levels : List (List α)) :
    occupied (levels.map (List.map f)) = (occupied levels).map (Prod.map id (List.map f)) := by
  rw [occupied, occupied]
  suffices h : ∀ i, occupiedFrom i (levels.map (List.map f))
      = (occupiedFrom i levels).map (Prod.map id (List.map f)) from h 0
  induction levels with
  | nil =>
    intro i
    rfl
  | cons level levels ih =>
    intro i
    rw [List.map_cons, occupiedFrom, occupiedFrom, ih, List.isEmpty_map]
    split
    · rfl
    · rfl

end Levels

/-! ### Sketches -/

namespace Sketch

/-- The sketch that holds the images of the items. -/
def map (f : α → β) (s : Sketch α cmp) : Sketch β cmp' where
  k := s.k
  n := s.n
  buffer := s.buffer.map f
  levels := s.levels.map (List.map f)
  least := s.least.map f
  greatest := s.greatest.map f

theorem map_pattern (s : Sketch α cmp) : (s.map f : Sketch β cmp').pattern = s.pattern :=
  Levels.pattern_map s.levels

@[simp] theorem map_empty (k : ℕ) : ((empty k : Sketch α cmp).map f : Sketch β cmp') = empty k := by
  simp [map, empty]

theorem map_cleared (s : Sketch α cmp) :
    (({ s with buffer := #[] } : Sketch α cmp).map f : Sketch β cmp')
      = { (s.map f : Sketch β cmp') with buffer := #[] } := by
  simp [map]

theorem map_isEmpty (s : Sketch α cmp) : (s.map f : Sketch β cmp').isEmpty = s.isEmpty := rfl

section Comparison

variable (hf : ∀ x y, cmp' (f x) (f y) = cmp x y)
include hf

theorem lesser_map (known : Option α) (x : α) :
    lesser cmp' (known.map f) (f x) = (lesser cmp known x).map f := by
  cases known with
  | none => rfl
  | some y =>
    rw [Option.map_some, lesser, lesser, hf]
    split
    · rfl
    · rfl

theorem greater_map (known : Option α) (x : α) :
    greater cmp' (known.map f) (f x) = (greater cmp known x).map f := by
  cases known with
  | none => rfl
  | some y =>
    rw [Option.map_some, greater, greater, hf]
    split
    · rfl
    · rfl

theorem maps_settle (s : Sketch α cmp) (start : ℕ) (block : List α) :
    Maps (map f) (s.settle start block) ((s.map f : Sketch β cmp').settle start (block.map f)) := by
  rw [settle, settle]
  refine (Levels.maps_carryAt hf start s.levels block).bind fun levels => ?_
  have hlength : (s.map f : Sketch β cmp').levels.length = s.levels.length := List.length_map _
  rw [hlength, List.length_map]
  exact Related.notes (R := fun t t' => t' = map f t) (.done rfl) _

theorem maps_compact (s : Sketch α cmp) :
    Maps (map f) s.compact (s.map f : Sketch β cmp').compact := by
  have hsorted : sortBy cmp' (s.buffer.map f).toList = (sortBy cmp s.buffer.toList).map f := by
    rw [Array.toList_map, sortBy_map hf]
  rw [compact, compact]
  show Maps _ _ ((halve (sortBy cmp' (s.buffer.map f).toList)).bind fun block =>
    { (s.map f : Sketch β cmp') with buffer := #[] }.settle 0 block)
  rw [hsorted, ← map_cleared]
  exact (maps_halve _).bind fun block => maps_settle hf { s with buffer := #[] } 0 block

theorem map_push (s : Sketch α cmp) (x : α) :
    (s.map f : Sketch β cmp').push (f x) = (s.push x).map f := by
  simp only [push, map, Array.map_push, lesser_map hf, greater_map hf]

/-- An item and its image. -/
theorem maps_update (s : Sketch α cmp) (x : α) :
    Maps (map f) (s.update x) ((s.map f : Sketch β cmp').update (f x)) := by
  have hsize : ((s.push x).map f : Sketch β cmp').buffer.size = (s.push x).buffer.size :=
    Array.size_map
  rw [update, update, map_push hf, hsize]
  show Related _ _ (if (s.push x).buffer.size = 2 * (s.push x).k then _ else _)
  split
  · exact maps_compact hf (s.push x)
  · exact .done rfl

/-- Items in a row and their images. -/
theorem maps_updateAll (s : Sketch α cmp) (xs : List α) :
    Maps (map f) (s.updateAll xs) ((s.map f : Sketch β cmp').updateAll (xs.map f)) := by
  induction xs generalizing s with
  | nil => exact .done rfl
  | cons x xs ih => exact (maps_update hf s x).bind fun t => ih t

theorem maps_absorbBlocks (s : Sketch α cmp) (stride shift : ℕ) (blocks : List (ℕ × List α)) :
    Maps (map f) (s.absorbBlocks stride shift blocks)
      ((s.map f : Sketch β cmp').absorbBlocks stride shift
        (blocks.map (Prod.map id (List.map f)))) := by
  induction blocks generalizing s with
  | nil => exact .done rfl
  | cons b blocks ih =>
    exact (maps_thin stride b.2).bind fun block =>
      (maps_settle hf s (b.1 + shift) block).bind fun t => ih t

theorem maps_absorb (s other : Sketch α cmp) :
    Maps (map f) (s.absorb other) ((s.map f : Sketch β cmp').absorb (other.map f)) := by
  have hitems : (other.buffer.map f).toList = other.buffer.toList.map f := Array.toList_map
  rw [absorb, absorb]
  simp only [map, hitems, Levels.occupied_map]
  refine Related.notes ?_ _
  exact (maps_updateAll hf s _).bind fun t =>
    (maps_absorbBlocks hf t _ _ _).bind fun u => .done rfl

theorem maps_reduced (s : Sketch α cmp) (k : ℕ) :
    Maps (map f) (s.reduced k) ((s.map f : Sketch β cmp').reduced k) := by
  rw [reduced, reduced]
  show Related _ _ (if k < s.k then _ else _)
  split
  · have hstart : (({ s with k, n := 0, buffer := #[], levels := [] } : Sketch α cmp).map f
        : Sketch β cmp')
        = { (s.map f : Sketch β cmp') with k, n := 0, buffer := #[], levels := [] } := by
      simp [map]
    have habsorb := maps_absorb hf { s with k, n := 0, buffer := #[], levels := [] } s
    rwa [hstart] at habsorb
  · exact .done rfl

theorem map_meetExtremes (s other : Sketch α cmp) :
    (s.map f : Sketch β cmp').meetExtremes (other.map f) = (s.meetExtremes other).map f := by
  simp only [meetExtremes, map]
  congr 1
  · cases other.least with
    | none => rfl
    | some x => exact lesser_map hf s.least x
  · cases other.greatest with
    | none => rfl
    | some x => exact greater_map hf s.greatest x

/-- A sketch and the sketch of its images are merged together, or both are not. -/
theorem maps_merge (s other : Sketch α cmp) :
    Option.Rel (Maps (map f)) (s.merge other).toOption
      ((s.map f : Sketch β cmp').merge (other.map f)).toOption := by
  rw [merge, merge]
  show Option.Rel _ _ (if other.isEmpty then Except.ok _
    else if RelatedSizes s.k other.k then Except.ok _ else Except.error _).toOption
  split
  · exact .some (.done rfl)
  · split
    · refine .some ?_
      refine (maps_reduced hf s other.k).bind fun t => ?_
      exact (maps_absorb hf t other).bind fun u => .done (map_meetExtremes hf u other)
    · exact .none

end Comparison

end Sketch

/-! ### Histories -/

variable {ρ : Type} [RandomSource ρ]

/-- The sketch that holds the images of the items, with the same source. -/
def LiveSketch.map (f : α → β) (s : LiveSketch α cmp ρ) : LiveSketch β cmp' ρ :=
  ⟨s.sketch.map f, s.source⟩

/-- The operation with the image of its item. -/
def Operation.map (f : α → β) : Operation α ρ → Operation β ρ
  | create slot k source => .create slot k source
  | update slot x => .update slot (f x)
  | merge slot other => .merge slot other
  | reset slot => .reset slot

theorem LiveSketch.map_become {x : Randomized (Sketch α cmp)} {y : Randomized (Sketch β cmp')}
    (h : Maps (Sketch.map f) x y) (source : ρ) :
    (LiveSketch.become source y).1 = (LiveSketch.become source x).1.map f := by
  obtain ⟨hvalue, hsource, -⟩ := h.run source
  rw [LiveSketch.become, LiveSketch.become, hvalue, ← hsource]
  rfl

theorem LiveSketch.toOption_merge (s : LiveSketch α cmp ρ) (other : Sketch α cmp) :
    (s.merge other).toOption.map Prod.fst
      = (s.sketch.merge other).toOption.map fun merged =>
          (LiveSketch.become s.source merged).1 := by
  rw [LiveSketch.merge]
  cases s.sketch.merge other with
  | error fault => rfl
  | ok merged => rfl

/-- Every operation takes sketches of items and of their images to such sketches. -/
theorem keeps_map (hf : ∀ x y, cmp' (f x) (f y) = cmp x y) :
    Keeps (fun x y => y = f x) Eq
      fun (s : LiveSketch α cmp ρ) (t : LiveSketch β cmp' ρ) => t = s.map f where
  create := by
    rintro k source _ - rfl
    rw [LiveSketch.map, Sketch.map_empty]
  update := by
    rintro s _ x _ rfl rfl
    exact LiveSketch.map_become (Sketch.maps_update hf s.sketch x) s.source
  merge := by
    rintro s _ t _ rfl rfl
    rw [LiveSketch.toOption_merge, LiveSketch.toOption_merge]
    exact rel_map (Sketch.maps_merge hf s.sketch t.sketch) fun x y hxy =>
      LiveSketch.map_become hxy s.source
  reset := by
    rintro s _ rfl
    rw [LiveSketch.map, LiveSketch.map, LiveSketch.reset, LiveSketch.reset, Sketch.reset,
      Sketch.reset, Sketch.map_empty]
    rfl

/-- A history of images ends in the images of what the history of the items ends in. -/
theorem history_map (hf : ∀ x y, cmp' (f x) (f y) = cmp x y) (ops : List (Operation α ρ))
    (slot : ℕ) :
    history cmp' (ops.map (Operation.map f)) slot
      = (history cmp ops slot).map (LiveSketch.map f) := by
  have hops : List.Forall₂ (Operation.Rel (fun x y => y = f x) Eq) ops
      (ops.map (Operation.map f)) := by
    rw [List.forall₂_map_right_iff, List.forall₂_same]
    rintro (⟨slot, k, source⟩ | ⟨slot, x⟩ | ⟨slot, other⟩ | ⟨slot⟩) -
    · exact .create slot k rfl
    · exact .update slot rfl
    · exact .merge slot other
    · exact .reset slot
  have hrel := (keeps_map hf).history hops slot
  revert hrel
  generalize history cmp ops slot = s
  generalize history cmp' (ops.map (Operation.map f)) slot = t
  rintro (rfl | _)
  · rfl
  · rfl

end QuantileSketch
