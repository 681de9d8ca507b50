import CodeAtlas.Text.Blank
import CodeAtlas.Text.Case

/-!
# Diagrams

A diagram is a text in the language of a diagram tool, with the number of its nodes and edges. A diagram
of nothing has a note instead.

* `Direction`: which way a diagram runs.
* `sanitizeLabel`: a text made fit for a label, on one line and without the characters of the language.
* `Diagram`: the text with its counts.
-/

namespace CodeAtlas

/-- Which way a diagram runs. -/
inductive Direction where
  | topDown
  | leftRight
deriving DecidableEq, Repr, Inhabited

namespace Direction

/-- How a direction is written. -/
def code : Direction → String
  | topDown => "TD"
  | leftRight => "LR"

/-- A word that names no direction, in capital letters. -/
structure ParseError where
  /-- The word. -/
  word : String
deriving DecidableEq, Repr

/-- The text of the error. -/
def ParseError.message (e : ParseError) : String :=
  s!"unknown direction '{e.word}', expected TD or LR"

/-- The direction that a word stands for, whatever its case. -/
def parse (s : String) : Except ParseError Direction :=
  let word := Text.onString Text.uppercase s
  if word == "TD" || word == "TB" then .ok topDown
  else if word == "LR" then .ok leftRight
  else .error ⟨word⟩

end Direction

/-- What a diagram shows. -/
inductive DiagramKind where
  | callTree
  | paths
  | concept
  | fileDependencies
  | includes
  | sequence
  | classes
deriving DecidableEq, Repr

/-- The name of a kind in reports. -/
def DiagramKind.code : DiagramKind → String
  | callTree => "call_tree"
  | paths => "paths"
  | concept => "concept"
  | fileDependencies => "file_dependencies"
  | includes => "includes"
  | sequence => "sequence"
  | classes => "classes"

/-- A diagram as text. -/
structure Diagram where
  kind : DiagramKind
  direction : Direction
  text : String
  nodeCount : Nat
  edgeCount : Nat
  /-- What the diagram says in place of nodes, if there is nothing to show. -/
  note : Option String
deriving DecidableEq, Repr

/-- Whether there was nothing to show. -/
def Diagram.isEmpty (d : Diagram) : Bool :=
  d.note.isSome

/-- The greatest number of characters of a label, before its characters are replaced. -/
def maxLabelLength : Nat := 60

/-- What stands for a character in a label. -/
def labelChar (c : Char) : Text :=
  if c == '&' then "#amp;".toList
  else if c == '"' then "#quot;".toList
  else if c == '<' then "#lt;".toList
  else if c == '>' then "#gt;".toList
  else if c == '[' then "#91;".toList
  else if c == ']' then "#93;".toList
  else [c]

/-- A text on one line: without carriage returns, with spaces for line feeds and tabs, and trimmed. -/
def flatten (text : Text) : Text :=
  Text.trim ((text.filter (· != '\r')).map fun c => if c == '\n' || c == '\t' then ' ' else c)

/-- A text of at most `maxLabelLength` characters, the last three of them dots if it was cut. -/
def shorten (text : Text) : Text :=
  if maxLabelLength < text.length then text.take (maxLabelLength - 3) ++ ['.', '.', '.'] else text

/-- A text made fit for a label. -/
def sanitizeText (text : Text) : Text :=
  (shorten (flatten text)).flatMap labelChar

/-- A string made fit for a label. -/
def sanitizeLabel (s : String) : String :=
  Text.onString sanitizeText s

end CodeAtlas
