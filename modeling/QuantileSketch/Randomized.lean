/-
Values that depend on random draws.

`Randomized β` is a tree: a leaf is a value, a branching asks for a draw and has
one subtree for each answer, and an event is noted on the way.  Which draws are
asked for can be read off the tree without any source of randomness:

* `run` — the leaf that the answers of a source lead to;
* `bind` — carries on from the value at each leaf, which makes a lawful monad;
* `Outcome` — a value with the source and the events left behind.

Design notes: a tree keeps apart what is computed from how randomness comes
about, so one definition serves every source, and averages over all answers are
sums over the branches.
-/
import QuantileSketch.Event
import QuantileSketch.Random.Source

namespace QuantileSketch

/-- A value that depends on draws, with events noted on the way. -/
inductive Randomized (β : Type) : Type
  /-- The value. -/
  | done (value : β)
  /-- Asks for a draw and goes on from its answer. -/
  | draw (d : Draw) (next : Fin d.range → Randomized β)
  /-- Notes an event. -/
  | note (event : Event) (next : Randomized β)

/-- What is left after a run: the value, the source and the events in order. -/
structure Outcome (β ρ : Type) where
  value : β
  source : ρ
  events : List Event := []

namespace Randomized

variable {β γ : Type}

/-- Carries on with `f` from the value. -/
def bind : Randomized β → (β → Randomized γ) → Randomized γ
  | done value, f => f value
  | draw d next, f => draw d fun answer => (next answer).bind f
  | note event next, f => note event (next.bind f)

instance : Monad Randomized where
  pure := done
  bind := bind

@[simp] theorem pure_eq_done (value : β) : (pure value : Randomized β) = done value := rfl

@[simp] theorem bind_eq_bind {γ : Type} (x : Randomized β) (f : β → Randomized γ) :
    x >>= f = x.bind f := rfl

@[simp] theorem done_bind (value : β) (f : β → Randomized γ) : (done value).bind f = f value := rfl

@[simp] theorem draw_bind (d : Draw) (next : Fin d.range → Randomized β) (f : β → Randomized γ) :
    (draw d next).bind f = draw d fun answer => (next answer).bind f := rfl

@[simp] theorem note_bind (event : Event) (next : Randomized β) (f : β → Randomized γ) :
    (note event next).bind f = note event (next.bind f) := rfl

@[simp] theorem bind_done (x : Randomized β) : x.bind done = x := by
  induction x with
  | done value => rfl
  | draw d next ih => simp [ih]
  | note event next ih => simp [ih]

theorem bind_assoc {δ : Type} (x : Randomized β) (f : β → Randomized γ)
    (g : γ → Randomized δ) : (x.bind f).bind g = x.bind fun value => (f value).bind g := by
  induction x with
  | done value => rfl
  | draw d next ih => simp [ih]
  | note event next ih => simp [ih]

instance : LawfulMonad Randomized := LawfulMonad.mk' Randomized
  (fun x => bind_done x) (fun _ _ => rfl) (fun x f g => bind_assoc x f g)

/-- Asks for a draw. -/
def ask (d : Draw) : Randomized (Fin d.range) := draw d done

/-- Notes the events given, in order. -/
def notes : List Event → Randomized β → Randomized β
  | [], x => x
  | event :: events, x => note event (notes events x)

/-- Answers every draw from a source. -/
def run {ρ : Type} [RandomSource ρ] : Randomized β → ρ → Outcome β ρ
  | done value, source => { value, source }
  | draw d next, source =>
    let (answer, source) := RandomSource.answer d source
    (next answer).run source
  | note event next, source =>
    let outcome := next.run source
    { outcome with events := event :: outcome.events }

end Randomized

end QuantileSketch
