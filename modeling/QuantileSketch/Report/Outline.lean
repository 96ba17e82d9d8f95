/-
Nested values written over several lines.

An outline is a single word or a block: an opening word, parts that are indented
by four spaces and end in a comma, and a closing word.  A part may have a label,
which stands before its first line.  A block without parts is one line.
-/

namespace QuantileSketch

/-- A value to be written as an outline. -/
inductive Outline
  | word (text : String)
  | block (opening : String) (parts : List (String × Outline)) (closing : String)

namespace Outline

/-- Puts a label before the first line of a part and a comma after the last. -/
def asPart (label : String) : List String → List String
  | [] => []
  | [line] => [label ++ line ++ ","]
  | first :: rest => (label ++ first) :: rest.dropLast ++ (rest.getLast?.map (· ++ ",")).toList

mutual

/-- The lines of an outline. -/
def lines : Outline → List String
  | word text => [text]
  | block opening [] closing => [opening ++ closing]
  | block opening (part :: parts) closing => opening :: partLines (part :: parts) ++ [closing]

/-- The lines of the parts of a block. -/
def partLines : List (String × Outline) → List String
  | [] => []
  | (label, part) :: parts => (asPart label part.lines).map ("    " ++ ·) ++ partLines parts

end

/-- The text of an outline. -/
def text (o : Outline) : String := "\n".intercalate o.lines

/-- The outline of a list, in brackets. -/
def list (items : List Outline) : Outline := block "[" (items.map ("", ·)) "]"

/-- The outline of a record: its name, and its fields in braces. -/
def record (name : String) (fields : List (String × Outline)) : Outline :=
  block (name ++ " \x7b") (fields.map fun (field, value) => (field ++ ": ", value)) "\x7d"

/-- The outline of a named value with arguments in parentheses. -/
def applied (name : String) (arguments : List Outline) : Outline :=
  block (name ++ "(") (arguments.map ("", ·)) ")"

end Outline

end QuantileSketch
