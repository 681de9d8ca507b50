import CodeAtlas.CodeView
import CodeAtlas.Digest

/-!
# Sources

A source is a text under a key, written in a language, together with its code view and the offsets at
which its lines start. Lines are counted from one.

* `Source.ofText`: the source of a text.
* `Source.lineAt`: the line of an offset.
* `Source.lineSpan?`: the bytes of a range of lines, clamped to the lines there are.
* `Source.lines`, `Source.codeLines`: the text and the code of a range of lines.
-/

namespace CodeAtlas

/-- The offsets after the line feeds of a text that stands at `offset`. -/
def lineStartsAfter (offset : Nat) : Text → List Nat
  | [] => []
  | c :: rest =>
    let next := offset + c.utf8Size
    if c == '\n' then next :: lineStartsAfter next rest else lineStartsAfter next rest

/-- A source text with what is read off it once. -/
structure Source where
  /-- The name under which the source is known, a path with slashes. -/
  key : String
  /-- The language the text is written in. -/
  language : Language
  /-- The text as it was read. -/
  text : Text
  /-- The text with comments and strings blanked out. -/
  code : Text
  /-- The offsets at which lines start, ascending from zero. -/
  lineStarts : List Nat
  /-- The code is the code view of the text by the rules of the language. -/
  code_eq : code = codeView language.family text
  /-- The lines start at zero and after each line feed. -/
  lineStarts_eq : lineStarts = 0 :: lineStartsAfter 0 text

namespace Source

/-- The source of a text. -/
def ofText (key : String) (language : Language) (text : Text) : Source where
  key := key
  language := language
  text := text
  code := codeView language.family text
  lineStarts := 0 :: lineStartsAfter 0 text
  code_eq := rfl
  lineStarts_eq := rfl

/-- The SHA-256 digest of the text, in hexadecimal. -/
def contentHash (source : Source) : String :=
  Digest.sha256Hex (String.ofList source.text).toUTF8.toList

/-- The number of lines. A line feed at the end does not open another line. Line numbers are natural numbers without
a bound: neither this one nor that of an offset stops at the greatest number of 32 bits. -/
def lineCount (source : Source) : Nat :=
  if source.text.isEmpty || source.text.getLast? == some '\n' then source.lineStarts.length - 1
  else source.lineStarts.length

/-- The line that holds an offset: the number of lines that start at the offset or before it. It has no bound
either. -/
def lineAt (source : Source) (offset : Nat) : Nat :=
  source.lineStarts.countP (· ≤ offset)

/-- The bytes of the lines from `first` to `last`, without the line feed at the end. Line numbers out of
range are moved to the nearest line, and a range that runs backwards to its first line. -/
def lineSpan? (source : Source) (first last : Nat) : Option Span := do
  let count := max source.lineCount 1
  let first := min (max first 1) count
  let last := max (min (max last 1) count) first
  let index ← Text.before? first
  let start := source.lineStarts[index]?.getD source.text.size
  let stop ←
    match source.lineStarts[last]? with
    | some next => Text.before? next
    | none => some source.text.size
  return ⟨min start stop, stop⟩

/-- The text of a range of lines, if it can be cut out. -/
def lines? (source : Source) (first last : Nat) : Option Text := do
  let span ← source.lineSpan? first last
  source.text.slice? span.start span.stop

/-- The text of a range of lines. -/
def lines (source : Source) (first last : Nat) : Text :=
  (source.lines? first last).getD []

/-- The code of a range of lines, if it can be cut out. -/
def codeLines? (source : Source) (first last : Nat) : Option Text := do
  let span ← source.lineSpan? first last
  source.code.slice? span.start span.stop

/-- The code of a range of lines. -/
def codeLines (source : Source) (first last : Nat) : Text :=
  (source.codeLines? first last).getD []

end Source

end CodeAtlas
