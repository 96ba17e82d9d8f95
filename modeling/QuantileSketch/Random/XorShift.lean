/-
A 64-bit xorshift generator.

Each step folds three shifted copies of the state into it; the state that results
is the word drawn.  The zero state would stay zero, so a zero seed is replaced.
-/
import QuantileSketch.Random.Source

namespace QuantileSketch

/-- A generator, which is its 64 bits of state. -/
structure XorShift where
  state : UInt64
  deriving DecidableEq, Inhabited

namespace XorShift

/-- The state that stands in for a zero seed. -/
def zeroSeed : UInt64 := 0x9e3779b97f4a7c15

/-- The generator that starts at a seed. -/
def ofSeed (seed : UInt64) : XorShift :=
  ⟨if seed = 0 then zeroSeed else seed⟩

/-- One step of the state. -/
def step (x : UInt64) : UInt64 :=
  let x := x ^^^ (x <<< 13)
  let x := x ^^^ (x >>> 7)
  x ^^^ (x <<< 17)

instance : RandomSource XorShift where
  next g := (step g.state, ⟨step g.state⟩)

end XorShift

end QuantileSketch
