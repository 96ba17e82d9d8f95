/-
Sources of randomness, as they answer requests.

Compaction asks for two kinds of value: a fair bit, and a number below a bound.
A request is a `Draw`, and its answer lies in `Fin d.range`.

* `Draw.ofWord` — the answer that a uniform 64-bit word gives: its lowest bit, or
  the high half of its product with the bound;
* `RandomSource` — a stream of words with an answer to every request.

Design notes: a bound comes with the proof that it is positive, so an answer
always exists; `Draw.below?` is the door for bounds that are not known to be.
-/

namespace QuantileSketch

/-- Faults of the caller, which a sketch never commits itself. -/
inductive Misuse
  /-- A number was asked for below zero. -/
  | emptyRange
  /-- A second source was given to a report that has one. -/
  | sourceAlreadySet
  deriving DecidableEq

/-- What is wrong, in words. -/
def Misuse.message : Misuse → String
  | .emptyRange => "bound must be positive"
  | .sourceAlreadySet => "the source error has been set"

/-- A request to a source of randomness. -/
inductive Draw
  /-- A fair bit. -/
  | bit
  /-- A number below a bound. -/
  | below (bound : Nat) (pos : 0 < bound)
  deriving DecidableEq

namespace Draw

/-- The number of possible answers. -/
def range : Draw → Nat
  | bit => 2
  | below bound _ => bound

theorem range_pos : ∀ d : Draw, 0 < d.range
  | bit => by decide
  | below _ h => h

/-- The request for a number below `bound`, which has to be positive. -/
def below? (bound : Nat) : Except Misuse Draw :=
  if h : 0 < bound then .ok (.below bound h) else .error .emptyRange

/-- The answer that a 64-bit word gives to a request. -/
def ofWord : (d : Draw) → UInt64 → Fin d.range
  | bit, word => ⟨word.toNat % 2, Nat.mod_lt _ (by decide)⟩
  | below bound h, word =>
    ⟨(word.toNat * bound) >>> 64, by
      rw [Nat.shiftRight_eq_div_pow, Nat.div_lt_iff_lt_mul (by decide), Nat.mul_comm]
      exact Nat.mul_lt_mul_of_pos_left word.toNat_lt h⟩

end Draw

/-- A stream of 64-bit words that answers requests. -/
class RandomSource (ρ : Type) where
  /-- The next word, and the source after it. -/
  next : ρ → UInt64 × ρ
  /-- The answer to a request, and the source after it. -/
  answer : (d : Draw) → ρ → Fin d.range × ρ := fun d source =>
    let (word, source) := next source
    (d.ofWord word, source)

/-- One of two sources. -/
instance {ρ : Type} {σ : Type} [RandomSource ρ] [RandomSource σ] : RandomSource (ρ ⊕ σ) where
  next
    | .inl source => (RandomSource.next source).map id .inl
    | .inr source => (RandomSource.next source).map id .inr
  answer
    | d, .inl source => (RandomSource.answer d source).map id .inl
    | d, .inr source => (RandomSource.answer d source).map id .inr

end QuantileSketch
