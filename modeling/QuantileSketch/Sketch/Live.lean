/-
Sketches at work, each with a source of randomness.

A live sketch answers the draws of its operations from its own source.  Every
operation gives the sketch after it and the events noted on the way.
-/
import QuantileSketch.Sketch.Merge

namespace QuantileSketch

/-- A sketch with the source that it draws from. -/
structure LiveSketch (α : Type) (cmp : α → α → Ordering) (ρ : Type) where
  sketch : Sketch α cmp
  source : ρ

namespace LiveSketch

variable {α : Type} {cmp : α → α → Ordering} {ρ : Type} [RandomSource ρ]

/-- Answers the draws of an operation. -/
def become (source : ρ) (next : Randomized (Sketch α cmp)) : LiveSketch α cmp ρ × List Event :=
  let outcome := next.run source
  ({ sketch := outcome.value, source := outcome.source }, outcome.events)

/-- Adds an item of the stream. -/
def update (s : LiveSketch α cmp ρ) (x : α) : LiveSketch α cmp ρ × List Event :=
  become s.source (s.sketch.update x)

/-- Adds items of the stream, one after the other. -/
def updateAll (s : LiveSketch α cmp ρ) (xs : List α) : LiveSketch α cmp ρ × List Event :=
  become s.source (s.sketch.updateAll xs)

/-- Merges another sketch into this one. -/
def merge (s : LiveSketch α cmp ρ) (other : Sketch α cmp) :
    Except Fault (LiveSketch α cmp ρ × List Event) :=
  (s.sketch.merge other).map (become s.source)

/-- Forgets the stream; the source stays as it is. -/
def reset (s : LiveSketch α cmp ρ) : LiveSketch α cmp ρ :=
  { s with sketch := s.sketch.reset }

end LiveSketch

end QuantileSketch
