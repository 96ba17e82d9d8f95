/-
Reports of faults.

A report has a kind, a message, any number of named details, and possibly the
cause behind it, which may have a cause of its own.  It can be written in three
forms:

* `Report.line` — on one line;
* `Report.page` — the details and the chain of causes on lines of their own;
* `Report.outline` — every field, as a nested record.
-/
import QuantileSketch.Random.Source
import QuantileSketch.Report.Outline
import QuantileSketch.Text.Quoted

namespace QuantileSketch

/-- The kinds of fault. -/
inductive FaultKind
  /-- An argument is outside of what an operation takes. -/
  | invalidArgument
  /-- The parts of a sketch contradict each other. -/
  | inconsistentState
  /-- An image is not one of a sketch. -/
  | malformedImage
  deriving DecidableEq

/-- The name of a kind in reports. -/
def FaultKind.name : FaultKind → String
  | invalidArgument => "InvalidArgument"
  | inconsistentState => "InconsistentState"
  | malformedImage => "MalformedDeserializeData"

/-- What lies behind a fault: a text, or a text about a deeper cause. -/
inductive Cause
  | root (text : String)
  | wrapped (text : String) (cause : Cause)
  deriving DecidableEq

namespace Cause

/-- The outermost text. -/
def text : Cause → String
  | root text => text
  | wrapped text _ => text

/-- All texts, the outermost first. -/
def chain : Cause → List String
  | root text => [text]
  | wrapped text cause => text :: cause.chain

/-- The cause whose texts are given, the outermost first. -/
def ofChain : String → List String → Cause
  | text, [] => root text
  | text, next :: rest => wrapped text (ofChain next rest)

/-- A cause as nested records. -/
def outline : Cause → Outline
  | root text => .word (Text.quote text)
  | wrapped text cause =>
    .record "Error" [("context", .word (Text.quoteJoined text)), ("source", cause.outline)]

end Cause

/-- A report of a fault. -/
structure Report where
  kind : FaultKind
  message : String
  details : List (String × String) := []
  cause : Option Cause := none
  deriving DecidableEq

namespace Report

/-- Adds a named detail after the others. -/
def withDetail (r : Report) (name value : String) : Report :=
  { r with details := r.details ++ [(name, value)] }

/-- Gives a report its cause, which it must not have yet. -/
def setCause (r : Report) (cause : Cause) : Except Misuse Report :=
  if r.cause.isSome then .error .sourceAlreadySet else .ok { r with cause := some cause }

/-- A detail by its name and value. -/
def detailText : String × String → String
  | (name, value) => name ++ ": " ++ value

/-- The report on one line. -/
def line (r : Report) : String :=
  let details := ", ".intercalate (r.details.map detailText)
  r.kind.name
    ++ (if r.details.isEmpty then "" else ", context: \x7b " ++ details ++ " \x7d")
    ++ (if r.message.isEmpty then "" else " => " ++ r.message)
    ++ (r.cause.map fun cause => ", source: " ++ cause.text).getD ""

/-- The lines of a section of a page, after a blank line. -/
def sectionLines (title : String) (entries : List String) : List String :=
  if entries.isEmpty then [] else "" :: (title ++ ":") :: entries.map ("   " ++ ·)

/-- The report as a page: a heading, the details and the chain of causes. -/
def page (r : Report) : String :=
  let heading := r.kind.name ++ (if r.message.isEmpty then "" else " => " ++ r.message)
  let details := sectionLines "Context" (r.details.map detailText)
  let causes := sectionLines "Source" (r.cause.map fun cause => ": ".intercalate cause.chain).toList
  String.join ((heading :: details ++ causes).map (· ++ "\n"))

/-- The report as a nested record of all its fields. -/
def outline (r : Report) : Outline :=
  let pair : String × String → Outline := fun (name, value) =>
    .applied "" [.word (Text.quote name), .word (Text.quote value)]
  .record "Error" [
    ("kind", .word r.kind.name),
    ("message", .word (Text.quote r.message)),
    ("context", .list (r.details.map pair)),
    ("source", (r.cause.map fun cause => .applied "Some" [cause.outline]).getD (.word "None"))]

end Report

end QuantileSketch
