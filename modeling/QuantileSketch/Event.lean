/-
What a sketch says about its work.

Growth, downsampling and the way a histogram is counted are of interest to
whoever watches a sketch, and so is every fault of consistency.
-/
import QuantileSketch.Fault

namespace QuantileSketch

/-- How the items of the buffer are counted into the buckets of a histogram. -/
inductive CountingStrategy
  /-- Look through the split points for each item. -/
  | bilinear
  /-- Sort the items, then walk items and split points together. -/
  | linear
  deriving DecidableEq

def CountingStrategy.name : CountingStrategy → String
  | bilinear => "Bilinear"
  | linear => "Linear"

/-- Something worth a note. -/
inductive Event
  /-- A sketch of block size `k` has got more levels after `n` items. -/
  | grew (levels k n : Nat)
  /-- The levels of a sketch are brought to a smaller block size. -/
  | downsampling (source target : Nat)
  /-- A histogram is counted. -/
  | histogram (splitPoints : Nat) (strategy : CountingStrategy)
  /-- The parts of a sketch were found to contradict each other. -/
  | inconsistent (message : String)
  deriving DecidableEq

/-- How much an event matters. -/
inductive Severity
  | trace
  | debug
  | error
  deriving DecidableEq

def Severity.name : Severity → String
  | trace => "TRACE"
  | debug => "DEBUG"
  | error => "ERROR"

namespace Event

def severity : Event → Severity
  | grew _ _ _ | downsampling _ _ => .debug
  | histogram _ _ => .trace
  | inconsistent _ => .error

/-- An event in words. -/
def message : Event → String
  | grew levels k n => s!"quantiles sketch grew to {levels} levels (k = {k}, n = {n})"
  | downsampling source target => s!"downsampling levels from k = {source} to k = {target}"
  | histogram splitPoints strategy =>
    s!"histogram over {splitPoints} split points, base buffer strategy {strategy.name}"
  | inconsistent message => "quantiles sketch failed a consistency check: " ++ message

/-- An event on one line, after its severity. -/
def line (e : Event) : String := e.severity.name ++ " " ++ e.message

end Event

/-- What is said about a fault when it arises. -/
def Fault.events (fault : Fault) : List Event :=
  if fault.kind = .inconsistentState then [.inconsistent fault.message] else []

end QuantileSketch
