/-
Text in quotes.

A quote and a backslash are written with a backslash before them; line ends,
tabs and the null character have letters of their own; every other hidden
character is written as its code point in hexadecimal.  The two forms differ in
the marks that join the character before them and in the apostrophe.

* `quote` — every joining mark is written as its code point, so that it shows;
* `quoteJoined` — only a mark at the start is, since it would join the quote, and
  the apostrophe has a backslash before it too.
-/
import QuantileSketch.Text.Characters

namespace QuantileSketch.Text

/-- A character written as its code point in hexadecimal. -/
def codePoint (c : Char) : List Char :=
  ['\\', 'u', '\x7b'] ++ Nat.toDigits 16 c.toNat ++ ['\x7d']

/-- How a character is written within quotes after one that it may join. -/
def escape (c : Char) : List Char :=
  match c with
  | '"' => ['\\', '"']
  | '\\' => ['\\', '\\']
  | '\n' => ['\\', 'n']
  | '\r' => ['\\', 'r']
  | '\t' => ['\\', 't']
  | '\x00' => ['\\', '0']
  | c => if isVisible c then [c] else codePoint c

/-- How a character is written within quotes if it is to show by itself. -/
def escapeAlone (c : Char) : List Char :=
  if isJoining c then codePoint c else escape c

/-- Characters, with a backslash before every apostrophe. -/
def escapeApostrophes (cs : List Char) : List Char :=
  cs.flatMap fun c => if c = '\'' then ['\\', c] else [c]

/-- Text in quotes, on one line and with all its characters showing. -/
def quote (s : String) : String :=
  String.ofList ('"' :: s.toList.flatMap escapeAlone ++ ['"'])

/-- Text in quotes, on one line and with its marks joined to their characters. -/
def quoteJoined (s : String) : String :=
  let written := (s.toList.take 1).flatMap escapeAlone ++ (s.toList.drop 1).flatMap escape
  String.ofList ('"' :: escapeApostrophes written ++ ['"'])

end QuantileSketch.Text
