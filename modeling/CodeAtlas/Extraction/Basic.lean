import CodeAtlas.Block
import CodeAtlas.Pattern.Search
import CodeAtlas.Sequence
import CodeAtlas.Symbol

/-!
# Extractions

What the rules of a family read off a source: symbols, the names of included files, and how many blocks
ran into the end of the file. The rules find headers in the code; the symbols are cut out of the text. A step
has no result when an offset is not a character boundary of the text it cuts, or would fall below zero.

* `Header`: a definition as it is found in the code.
* `Finding`: what one match of a rule contributes.
* `Header.symbol?`: the symbol of a header.
* `Extraction.push`: adds a symbol; of two with one name and first line, the first is kept.
* `Extraction.ofFindings?`: the symbols of some findings in order, each include once.
-/

namespace CodeAtlas

/-- A definition as a rule finds it in the code. -/
structure Header where
  name : Text
  kind : SymbolKind
  /-- The offset at which the header starts, with the blanks in front of it. -/
  start : Nat
  /-- The offset at which the header ends. -/
  stop : Nat
  /-- The last line of the definition. -/
  endLine : Nat
deriving DecidableEq, Repr

/-- What one match of a rule contributes. -/
structure Finding where
  /-- The header that the match is, if it is one. -/
  header : Option Header := none
  /-- Whether the block of the header runs into the end of the file. -/
  unterminated : Bool := false
deriving DecidableEq, Repr

/-- A match that contributes nothing. -/
def Finding.nothing : Finding := {}

/-- The symbol whose header starts at the first character after the blanks. -/
def Header.symbol? (source : Source) (h : Header) : Option Symbol := do
  let rest ← source.text.sliceFrom? h.start
  let start := h.start + (rest.takeWhile Text.isAsciiBlank).length
  let stop := max start (min h.stop source.text.size)
  let startLine := source.lineAt start
  let endLine := max h.endLine startLine
  let signature ← source.text.slice? start stop
  let body ← source.lines? startLine endLine
  return {
    name := String.ofList h.name
    kind := h.kind
    file := source.key
    startLine := startLine
    endLine := endLine
    signature := String.ofList (Text.squeeze signature)
    body := String.ofList body }

/-- What was read off a source. -/
structure Extraction where
  symbols : List Symbol := []
  includes : List String := []
  /-- The number of blocks that run into the end of the file. -/
  unterminated : Nat := 0
deriving DecidableEq, Repr, Inhabited

namespace Extraction

/-- Adds a symbol unless one with its name and first line is there. -/
def push (e : Extraction) (s : Symbol) : Extraction :=
  if e.symbols.any (fun t => t.startLine == s.startLine && t.name == s.name) then e
  else { e with symbols := e.symbols ++ [s] }

/-- Whether a symbol comes before another in a file, or at its place. -/
def inOrder (a b : Symbol) : Bool :=
  a.startLine < b.startLine || (a.startLine == b.startLine && a.name ≤ b.name)

/-- Symbols by first line and name, each include once. -/
def finish (e : Extraction) : Extraction :=
  { e with symbols := sortBy inOrder e.symbols, includes := e.includes.eraseDups }

/-- The extraction of some findings and includes. -/
def ofFindings? (source : Source) (findings : List Finding) (includes : List String) :
    Option Extraction := do
  let symbols ← (findings.filterMap Finding.header).mapM (Header.symbol? source)
  let empty : Extraction := ⟨[], includes, findings.countP Finding.unterminated⟩
  return (symbols.foldl push empty).finish

end Extraction

/-- Words of the languages that never name a definition. -/
def reservedWords : List String :=
  ["if", "else", "for", "while", "do", "switch", "case", "return", "sizeof", "typeof", "catch", "try",
    "new", "delete", "throw", "function", "func", "fn", "with", "elif", "except", "match", "loop",
    "synchronized", "super", "this", "await", "yield", "defer", "go", "select", "assert"]

/-- Whether a text is a reserved word. -/
def isReserved (word : Text) : Bool :=
  reservedWords.contains (String.ofList word)

namespace Pattern

/-- Spaces and tabs, as many as there are. -/
def gap : Pattern := star (oneOf " \t")

/-- Spaces and tabs, at least one. -/
def space : Pattern := plus (oneOf " \t")

/-- Blanks of any kind, as many as there are. -/
def blanks : Pattern := star (one .blank)

/-- A name of ASCII letters and underscores first, then word characters. -/
def name : Pattern := one .asciiStart ++ star (one .word)

/-- A name in which a dollar sign counts as a letter. -/
def dollarName : Pattern := one (.or .asciiStart "$") ++ star (one (.or .word "$"))

/-- The texts that a group of a pattern matches in a text, trimmed. -/
def trimmedGroups (p : Pattern) (number : Nat) (text : Text) : Option (List Text) :=
  ((p.findAll text).filterMap (·.group? number)).mapM fun span =>
    (text.slice? span.start span.stop).map Text.trim

end Pattern

end CodeAtlas
