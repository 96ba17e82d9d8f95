/-
Histories of sketches.

A history makes sketches, each with a source of its own, keeps them in numbered slots, and
updates, merges and resets them in any order.

* `Operation.apply`, `history` — the slots after one operation and after all of them;
* `Operation.Rel` — operations that do the same to the same slots, with related items and
  sources;
* `Keeps.history` — a relation between sketches that every operation keeps holds after two
  histories of related operations, slot by slot;
* `drawn` — the draws of a sketch in the course of a history, which a source can record
  without changing anything (`history_recorded`).

Design notes: the two histories may be about items of different types, with comparisons and
sources of their own, so a statement about two runs is an instance with the relations that
the statement is about.
-/
import QuantileSketch.Sketch.Live
import Mathlib.Data.List.Forall2
import Mathlib.Logic.Function.Basic

open QuantileSketch.Randomized

namespace QuantileSketch

variable {α β : Type} {cmp : α → α → Ordering} {cmp' : β → β → Ordering}
variable {ρ σ : Type} [RandomSource ρ] [RandomSource σ]

/-! ### Operations on slots -/

/-- An operation on sketches in slots. -/
inductive Operation (α ρ : Type)
  /-- Makes a new sketch with a source. -/
  | create (slot k : ℕ) (source : ρ)
  /-- Adds an item of the stream. -/
  | update (slot : ℕ) (x : α)
  /-- Merges a copy of the sketch in another slot, or in the same one. -/
  | merge (slot other : ℕ)
  /-- Forgets the stream. -/
  | reset (slot : ℕ)

/-- Sketches in slots. -/
abbrev Slots (α : Type) (cmp : α → α → Ordering) (ρ : Type) : Type :=
  ℕ → Option (LiveSketch α cmp ρ)

namespace Operation

/-- The slot that an operation is about. -/
def slot : Operation α ρ → ℕ
  | create slot _ _ => slot
  | update slot _ => slot
  | merge slot _ => slot
  | reset slot => slot

/-- The sketch that an operation puts into its slot.  There is none if the operation fails,
or a slot that it needs is free. -/
def result? (slots : Slots α cmp ρ) : Operation α ρ → Option (LiveSketch α cmp ρ)
  | create _ k source => (Sketch.ofSize? k).toOption.map fun sketch => ⟨sketch, source⟩
  | update slot x => (slots slot).map fun s => (s.update x).1
  | merge slot other =>
    (slots slot).bind fun s =>
      (slots other).bind fun t => (s.merge t.sketch).toOption.map Prod.fst
  | reset slot => (slots slot).map LiveSketch.reset

/-- The slots after an operation.  One that fails changes nothing. -/
def apply (slots : Slots α cmp ρ) (op : Operation α ρ) : Slots α cmp ρ :=
  match op.result? slots with
  | some s => Function.update slots op.slot (some s)
  | none => slots

end Operation

/-- The slots after operations in a row, which find all of them free. -/
def history (cmp : α → α → Ordering) (ops : List (Operation α ρ)) : Slots α cmp ρ :=
  ops.foldl Operation.apply fun _ => none

/-! ### Two histories -/

section Rel

variable {γ δ : Type} {Q : α → β → Prop} {T : γ → δ → Prop}

theorem rel_mono {Q' : α → β → Prop} {x : Option α} {y : Option β} (h : Option.Rel Q x y)
    (hQ : ∀ a b, Q a b → Q' a b) : Option.Rel Q' x y := by
  cases h with
  | some h => exact .some (hQ _ _ h)
  | none => exact .none

theorem rel_bind {x : Option α} {y : Option β} {f : α → Option γ} {g : β → Option δ}
    (h : Option.Rel Q x y) (hfg : ∀ a b, Q a b → Option.Rel T (f a) (g b)) :
    Option.Rel T (x.bind f) (y.bind g) := by
  cases h with
  | some h => exact hfg _ _ h
  | none => exact .none

theorem rel_map {x : Option α} {y : Option β} {f : α → γ} {g : β → δ}
    (h : Option.Rel Q x y) (hfg : ∀ a b, Q a b → T (f a) (g b)) :
    Option.Rel T (x.map f) (y.map g) := by
  cases h with
  | some h => exact .some (hfg _ _ h)
  | none => exact .none

theorem rel_eq_iff {x y : Option α} : Option.Rel Eq x y ↔ x = y := by
  constructor
  · rintro (rfl | _)
    · rfl
    · rfl
  · rintro rfl
    cases x with
    | some a => exact .some rfl
    | none => exact .none

theorem rel_elim {x : Option α} {y : Option β} {c : γ} {d : δ} {f : α → γ} {g : β → δ}
    (h : Option.Rel Q x y) (hcd : T c d) (hfg : ∀ a b, Q a b → T (f a) (g b)) :
    T (x.elim c f) (y.elim d g) := by
  cases h with
  | some h => exact hfg _ _ h
  | none => exact hcd

/-- One slot on each side is filled anew. -/
theorem rel_update {slots : ℕ → Option α} {slots' : ℕ → Option β}
    (h : ∀ slot, Option.Rel Q (slots slot) (slots' slot)) {s : α} {s' : β} (hs : Q s s')
    (target slot : ℕ) :
    Option.Rel Q (Function.update slots target (some s) slot)
      (Function.update slots' target (some s') slot) := by
  by_cases heq : slot = target
  · rw [heq, Function.update_self, Function.update_self]
    exact .some hs
  · rw [Function.update_of_ne heq, Function.update_of_ne heq]
    exact h slot

end Rel

/-- The operations do the same to the same slots, with related items and sources. -/
inductive Operation.Rel (R : α → β → Prop) (S : ρ → σ → Prop) :
    Operation α ρ → Operation β σ → Prop
  /-- Both make a sketch of the same block size. -/
  | create (slot k : ℕ) {source : ρ} {source' : σ} (h : S source source') :
    Rel R S (.create slot k source) (.create slot k source')
  /-- Both add an item. -/
  | update (slot : ℕ) {x : α} {x' : β} (h : R x x') : Rel R S (.update slot x) (.update slot x')
  /-- Both merge the same slots. -/
  | merge (slot other : ℕ) : Rel R S (.merge slot other) (.merge slot other)
  /-- Both forget the stream of the same slot. -/
  | reset (slot : ℕ) : Rel R S (.reset slot) (.reset slot)

/-- Every operation keeps a relation between live sketches, if its items and sources are
related. -/
structure Keeps (R : α → β → Prop) (S : ρ → σ → Prop)
    (Q : LiveSketch α cmp ρ → LiveSketch β cmp' σ → Prop) : Prop where
  create : ∀ {k source source'}, Admissible k → S source source' →
    Q ⟨.empty k, source⟩ ⟨.empty k, source'⟩
  update : ∀ {s s' x x'}, Q s s' → R x x' → Q (s.update x).1 (s'.update x').1
  merge : ∀ {s s' t t'}, Q s s' → Q t t' →
    Option.Rel Q ((s.merge t.sketch).toOption.map Prod.fst)
      ((s'.merge t'.sketch).toOption.map Prod.fst)
  reset : ∀ {s s'}, Q s s' → Q s.reset s'.reset

namespace Keeps

variable {R : α → β → Prop} {S : ρ → σ → Prop}
variable {Q : LiveSketch α cmp ρ → LiveSketch β cmp' σ → Prop}
variable {slots : Slots α cmp ρ} {slots' : Slots β cmp' σ}

theorem result? (h : Keeps R S Q) (hslots : ∀ slot, Option.Rel Q (slots slot) (slots' slot))
    {op : Operation α ρ} {op' : Operation β σ} (hop : op.Rel R S op') :
    Option.Rel Q (op.result? slots) (op'.result? slots') := by
  cases hop with
  | create slot k hS =>
    rw [Operation.result?, Operation.result?, Sketch.ofSize?, Sketch.ofSize?]
    split
    · rename_i hk
      exact .some (h.create hk hS)
    · exact .none
  | update slot hR => exact rel_map (hslots slot) fun s s' hs => h.update hs hR
  | merge slot other =>
    exact rel_bind (hslots slot) fun s s' hs => rel_bind (hslots other) fun t t' ht =>
      h.merge hs ht
  | reset slot => exact rel_map (hslots slot) fun s s' hs => h.reset hs

/-- One operation. -/
theorem apply (h : Keeps R S Q) (hslots : ∀ slot, Option.Rel Q (slots slot) (slots' slot))
    {op : Operation α ρ} {op' : Operation β σ} (hop : op.Rel R S op') (slot : ℕ) :
    Option.Rel Q (op.apply slots slot) (op'.apply slots' slot) := by
  have hslot : op.slot = op'.slot := by cases hop <;> rfl
  have hresult := h.result? hslots hop
  rw [Operation.apply, Operation.apply]
  revert hresult
  generalize op.result? slots = s
  generalize op'.result? slots' = s'
  rintro (hs | _)
  · rw [hslot]
    exact rel_update hslots hs op'.slot slot
  · exact hslots slot

/-- Operations in a row. -/
theorem history (h : Keeps R S Q) {ops : List (Operation α ρ)} {ops' : List (Operation β σ)}
    (hops : List.Forall₂ (Operation.Rel R S) ops ops') (slot : ℕ) :
    Option.Rel Q (history cmp ops slot) (history cmp' ops' slot) := by
  -- The slots so far are related, and go on to be so from one operation to the next.
  have hgen : ∀ (slots : Slots α cmp ρ) (slots' : Slots β cmp' σ),
      (∀ slot, Option.Rel Q (slots slot) (slots' slot)) →
        Option.Rel Q (ops.foldl Operation.apply slots slot)
          (ops'.foldl Operation.apply slots' slot) := by
    induction hops with
    | nil => exact fun _ _ hslots => hslots slot
    | cons hop _ ih => exact fun _ _ hslots => ih _ _ fun slot => h.apply hslots hop slot
  exact hgen _ _ fun _ => .none

end Keeps

/-! ### The draws of a history -/

/-- A source that records the draws it is asked for. -/
structure Recorded (ρ : Type) where
  source : ρ
  draws : List Draw := []

instance : RandomSource (Recorded ρ) where
  next r := (RandomSource.next r.source).map id fun source => { r with source }
  answer d r := (RandomSource.answer d r.source).map id fun source =>
    { source, draws := r.draws ++ [d] }

/-- The same operation, with a source that records its draws. -/
def Operation.recorded : Operation α ρ → Operation α (Recorded ρ)
  | create slot k source => .create slot k { source }
  | update slot x => .update slot x
  | merge slot other => .merge slot other
  | reset slot => .reset slot

/-- The draws that the sketch in a slot has asked for since it was made. -/
def drawn (cmp : α → α → Ordering) (ops : List (Operation α ρ)) (slot : ℕ) : List Draw :=
  (history cmp (ops.map Operation.recorded) slot).elim [] fun s => s.source.draws

theorem run_recorded (x : Randomized β) (r : Recorded ρ) :
    (x.run r).value = (x.run r.source).value
      ∧ (x.run r).source.source = (x.run r.source).source := by
  induction x generalizing r with
  | done value => exact ⟨rfl, rfl⟩
  | draw d next ih => exact ih _ _
  | note event next ih => exact ih r

/-- The same sketch, whose source records its draws. -/
def LiveSketch.IsRecorded (s : LiveSketch α cmp ρ) (r : LiveSketch α cmp (Recorded ρ)) : Prop :=
  s = ⟨r.sketch, r.source.source⟩

theorem LiveSketch.isRecorded_become (r : Recorded ρ) (next : Randomized (Sketch α cmp)) :
    (LiveSketch.become r.source next).1.IsRecorded (LiveSketch.become r next).1 := by
  obtain ⟨hvalue, hsource⟩ := run_recorded next r
  rw [IsRecorded, LiveSketch.become, LiveSketch.become, hvalue, hsource]

theorem keeps_isRecorded (cmp : α → α → Ordering) :
    Keeps Eq (fun (source : ρ) (r : Recorded ρ) => source = r.source)
      fun (s : LiveSketch α cmp ρ) r => s.IsRecorded r where
  create := by
    rintro k source r - rfl
    rfl
  update := by
    rintro s r x - rfl rfl
    exact LiveSketch.isRecorded_become r.source (r.sketch.update x)
  merge := by
    rintro s r t u rfl rfl
    rw [LiveSketch.merge, LiveSketch.merge]
    cases r.sketch.merge u.sketch with
    | error fault => exact .none
    | ok merged => exact .some (LiveSketch.isRecorded_become r.source merged)
  reset := by
    rintro s r rfl
    rfl

/-- Recording the draws changes nothing else. -/
theorem history_recorded (cmp : α → α → Ordering) (ops : List (Operation α ρ)) (slot : ℕ) :
    Option.Rel LiveSketch.IsRecorded (history cmp ops slot)
      (history cmp (ops.map Operation.recorded) slot) := by
  refine (keeps_isRecorded cmp).history ?_ slot
  rw [List.forall₂_map_right_iff, List.forall₂_same]
  rintro (⟨slot, k, source⟩ | ⟨slot, x⟩ | ⟨slot, other⟩ | ⟨slot⟩) -
  · exact .create slot k rfl
  · exact .update slot rfl
  · exact .merge slot other
  · exact .reset slot

/-- What holds of sketches whose sources record the same draws, holds of the sketches as they
are. -/
theorem rel_and_drawn_eq (P : Sketch α cmp → Sketch β cmp' → Prop) {ops : List (Operation α ρ)}
    {ops' : List (Operation β σ)} {slot : ℕ}
    (h : Option.Rel (fun s s' => P s.sketch s'.sketch ∧ s.source.draws = s'.source.draws)
      (history cmp (ops.map Operation.recorded) slot)
      (history cmp' (ops'.map Operation.recorded) slot)) :
    Option.Rel (fun s s' => P s.sketch s'.sketch) (history cmp ops slot) (history cmp' ops' slot)
      ∧ drawn cmp ops slot = drawn cmp' ops' slot := by
  have hrecorded := history_recorded cmp ops slot
  have hrecorded' := history_recorded cmp' ops' slot
  rw [drawn, drawn]
  revert h hrecorded hrecorded'
  generalize history cmp (ops.map Operation.recorded) slot = r
  generalize history cmp' (ops'.map Operation.recorded) slot = r'
  generalize history cmp ops slot = s
  generalize history cmp' ops' slot = s'
  rintro (⟨hP, hdraws⟩ | _) (rfl | _) (rfl | _)
  · exact ⟨.some hP, hdraws⟩
  · exact ⟨.none, rfl⟩

end QuantileSketch
