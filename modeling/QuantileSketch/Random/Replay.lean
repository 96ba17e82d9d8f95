/-
A source that replays a script of words, over and over.

It makes every choice of a sketch foreseeable, so it serves examples and tests of
what a given sequence of choices leads to.
-/
import QuantileSketch.Random.Source

namespace QuantileSketch

/-- A script and the part of it that is still to come in this round. -/
structure Replay where
  script : List UInt64
  rest : List UInt64
  deriving DecidableEq

namespace Replay

/-- The source that starts at the head of a script. -/
def ofScript (script : List UInt64) : Replay := ⟨script, script⟩

/-- The next word of the script, which starts over at its end.  An empty script
gives zeros. -/
def next (r : Replay) : UInt64 × Replay :=
  match r.rest, r.script with
  | word :: rest, _ => (word, { r with rest })
  | [], word :: rest => (word, { r with rest })
  | [], [] => (0, r)

instance : RandomSource Replay where
  next := next

end Replay

end QuantileSketch
