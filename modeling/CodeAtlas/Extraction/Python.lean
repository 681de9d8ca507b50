import CodeAtlas.Extraction.Basic

/-!
# Definitions with an indented block

The rules for Python. A `def` or `class` header ends with a colon, possibly after several lines. Its
block goes on to the last line that is indented deeper than the header.
-/

namespace CodeAtlas.Python

open Pattern

/-- A function header up to its parenthesis; the name is group 1, the indentation group 2. -/
def functionHeader : Pattern :=
  numbered <|
    lineStart ++ group 2 gap ++ opt (lit "async" ++ space) ++ lit "def" ++ space ++
      group 1 name ++ gap ++ lit "("

/-- A class header up to its parenthesis or colon; the name is group 1, the indentation group 2. -/
def classHeader : Pattern :=
  numbered <|
    lineStart ++ group 2 gap ++ lit "class" ++ space ++ group 1 name ++ gap ++ oneOf "(:"

/-- An import line; the statement is group 1. -/
def importLine : Pattern :=
  numbered <|
    lineStart ++ gap ++
      group 1
        (opt (lit "from" ++ space ++ plus (one (.or .word ".")) ++ space) ++ lit "import" ++ space ++
          plus (noneOf "\n#"))

/-- Whether the line that ends at an offset goes on after its line feed: its last character but spaces,
tabs and carriage returns is a backslash. -/
def continuesLine? (code : Text) (lineFeed : Nat) : Option Bool := do
  let before ← code.sliceTo? lineFeed
  let solid := Text.trimEndWhile (fun c => c == ' ' || c == '\t' || c == '\r') before
  return solid.getLast? == some '\\'

/-- The first colon outside of brackets before the end of the logical line, in the rest of a code that
stands at `offset`; `some none` if the line ends before one. -/
def colonFrom? (code : Text) (depth offset : Nat) : Text → Option (Option Nat)
  | [] => some none
  | c :: rest =>
    let next := offset + c.utf8Size
    if c == '(' || c == '[' then colonFrom? code (depth + 1) next rest
    else if c == ')' || c == ']' then colonFrom? code (depth - 1) next rest
    else if c == ':' && depth == 0 then some (some offset)
    else if c == '\n' && depth == 0 then do
      if ← continuesLine? code offset then colonFrom? code depth next rest else some none
    else colonFrom? code depth next rest

/-- The colon that ends the header whose parenthesis or colon stands at `last`. -/
def headerColon? (code : Text) (last : Nat) : Option (Option Nat) :=
  match code.charAt? last with
  | some ':' => some (some last)
  | some '(' =>
    match closingParen? code last with
    | some close =>
      let (offset, rest) := code.seek (close + 1)
      colonFrom? code 0 offset rest
    | none => some none
  | _ => some none

/-- The definition whose header a match is. A header without a colon counts as unterminated. -/
def blockAt? (source : Source) (kind : SymbolKind) (m : Match) : Option Finding := do
  let some group := m.group? 1 | return .nothing
  let some indentGroup := m.group? 2 | return .nothing
  let last ← Text.before? m.span.stop
  let some colon ← headerColon? source.code last | return ⟨none, true⟩
  let name ← source.code.slice? group.start group.stop
  let indent ← source.code.slice? indentGroup.start indentGroup.stop
  let endLine := source.indentedBlockEnd (source.lineAt colon) (indentWidth indent)
  return ⟨some ⟨name, kind, m.span.start, colon, endLine⟩, false⟩

/-- What the rules find in a source: functions, then classes. -/
def findings? (source : Source) : Option (List Finding) := do
  let functions ← (functionHeader.findAll source.code).mapM (blockAt? source .function)
  let classes ← (classHeader.findAll source.code).mapM (blockAt? source .structOrClass)
  return functions ++ classes

/-- The import statements of a source: found in its code, quoted from its text. -/
def includes? (source : Source) : Option (List Text) :=
  ((importLine.findAll source.code).filterMap (·.group? 1)).mapM fun span =>
    (source.text.slice? span.start span.stop).map Text.trim

end CodeAtlas.Python
