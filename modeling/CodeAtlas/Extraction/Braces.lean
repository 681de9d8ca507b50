import CodeAtlas.Extraction.Basic

/-!
# Definitions with a keyword or modifiers

The rules shared by Java, JavaScript, TypeScript, Go, Rust and every language without rules of its own.
Each rule finds a header; the body is the block in braces that follows it. A header that a semicolon
follows is a declaration.
-/

namespace CodeAtlas.Braces

open Pattern

/-- A function introduced by `function`. -/
def functionKeyword : Pattern :=
  numbered <|
    lineStart ++ gap ++ opt (lit "export" ++ space) ++ opt (lit "default" ++ space) ++
      opt (lit "async" ++ space) ++ lit "function" ++ gap ++ opt (lit "*") ++ gap ++
      group 1 dollarName

/-- A type annotation before an equals sign. -/
def typeAscription : Pattern :=
  opt (lit ":" ++ plus (noneOf "=\n"))

/-- A variable that is set to an arrow function. -/
def arrowFunction : Pattern :=
  numbered <|
    lineStart ++ gap ++ opt (lit "export" ++ space) ++ anyOf ["const", "let", "var"] ++ space ++
      group 1 dollarName ++ gap ++ typeAscription ++ lit "=" ++ gap ++ opt (lit "async" ++ gap) ++
      (lit "(" ++ star (noneOf "()") ++ lit ")" ||| dollarName) ++ gap ++ typeAscription ++ lit "=>"

/-- A function introduced by `func` at the start of a line, possibly with a receiver. -/
def funcKeyword : Pattern :=
  numbered <|
    lineStart ++ lit "func" ++ wordEdge ++ gap ++
      opt (lit "(" ++ star (noneOf ")") ++ lit ")" ++ gap) ++ group 1 name

/-- The visibility `pub`, possibly with its scope. -/
def pubScope : Pattern :=
  opt (lit "pub" ++ opt (lit "(" ++ star (noneOf ")") ++ lit ")") ++ space)

/-- A function introduced by `fn`. -/
def fnKeyword : Pattern :=
  numbered <|
    lineStart ++ gap ++ pubScope ++ opt (lit "default" ++ space) ++ opt (lit "const" ++ space) ++
      opt (lit "async" ++ space) ++ opt (lit "unsafe" ++ space) ++ opt (lit "extern" ++ space) ++
      lit "fn" ++ space ++ group 1 name

/-- A method: modifiers, possibly a type (group 2), a name and an opening parenthesis. -/
def method : Pattern :=
  numbered <|
    lineStart ++ gap ++
      star
        (anyOf ["public", "private", "protected", "internal", "static", "final", "abstract",
          "synchronized", "native", "async", "override", "readonly", "virtual", "default"] ++ space) ++
      opt
        (group 2 (one (.or .asciiStart "$") ++ star (one (.or .word "$<>[],.?"))) ++ space) ++
      group 1 dollarName ++ gap ++ opt (lit "<" ++ star (noneOf ">\n") ++ lit ">") ++ gap ++ lit "("

/-- A type declaration with its keyword in front of the name. -/
def typeKeyword : Pattern :=
  numbered <|
    lineStart ++ gap ++ opt (lit "export" ++ space) ++ opt (lit "default" ++ space) ++ pubScope ++
      star
        (anyOf ["public", "private", "protected", "internal", "static", "final", "abstract", "sealed",
          "declare"] ++ space) ++
      anyOf ["class", "interface", "struct", "enum", "trait", "record"] ++ space ++ group 1 dollarName

/-- A type declaration with its keyword behind the name. -/
def typeBehind : Pattern :=
  numbered <|
    lineStart ++ gap ++ lit "type" ++ space ++ group 1 name ++ space ++
      anyOf ["struct", "interface"] ++ wordEdge

/-- The import lines of the languages; the target is group 1. -/
def importLines : List Pattern :=
  [numbered <|
      lineStart ++ gap ++ lit "import" ++ oneOf " \t" ++ starLazy (noneOf "\n") ++ lit "from" ++
        space ++ oneOf "'\"" ++ group 1 (plus (noneOf "'\"\n")) ++ oneOf "'\"",
    numbered <|
      lineStart ++ gap ++ lit "import" ++ space ++ opt (lit "static" ++ space) ++
        group 1 (plus (one (.or .word ".*"))) ++ gap ++ lit ";",
    numbered <|
      lineStart ++ gap ++ opt (lit "pub" ++ space) ++ lit "use" ++ space ++
        group 1 (plus (noneOf ";\n")) ++ lit ";"]

/-- Where the body of a definition is looked for. -/
inductive Body where
  /-- In the next block; without one there is no definition. -/
  | block
  /-- In the next block, or else the definition ends with its header. -/
  | blockOrLine
  /-- Directly behind the header, or else the definition ends with its header. -/
  | arrow
deriving DecidableEq, Repr

/-- A rule: a header, what it defines and where the body is. -/
structure Rule where
  header : Pattern
  kind : SymbolKind
  body : Body
  /-- Whether statements look like the header, so that words of the languages have to be refused. -/
  ambiguous : Bool := false

/-- The rules, in the order in which they are applied. -/
def rules : List Rule :=
  [⟨functionKeyword, .function, .block, false⟩,
    ⟨arrowFunction, .function, .arrow, false⟩,
    ⟨funcKeyword, .function, .block, false⟩,
    ⟨fnKeyword, .function, .block, false⟩,
    ⟨method, .function, .block, true⟩,
    ⟨typeKeyword, .structOrClass, .blockOrLine, false⟩,
    ⟨typeBehind, .structOrClass, .blockOrLine, false⟩]

/-- Words that open a clause and so are neither a type nor a name. -/
def clauseWords : List String :=
  ["let", "const", "var", "mut", "in", "of", "use", "impl", "extends", "implements"]

/-- Whether a word can be neither the type nor the name of a method. -/
def isRefused (word : Text) : Bool :=
  isReserved word || clauseWords.contains (String.ofList word)

/-- The brace that is the first character at `start` or after it, ASCII blanks passed over. -/
def arrowBodyOpen? (code : Text) (start : Nat) : Option Nat :=
  let (offset, rest) := code.seek start
  let blanks := rest.takeWhile Text.isAsciiBlank
  if (rest.drop blanks.length).head? == some '\x7b' then some (offset + blanks.length) else none

/-- The definition whose header a match is. A header that ends with a parenthesis is left before it, so
that its arguments stay balanced. -/
def definitionAt? (source : Source) (rule : Rule) (m : Match) : Option Finding := do
  let some group := m.group? 1 | return .nothing
  let name ← source.code.slice? group.start group.stop
  let words ← (m.group? 2).toList.mapM fun span => source.code.slice? span.start span.stop
  if rule.ambiguous && (name :: words).any isRefused then return .nothing
  let last ← Text.before? m.span.stop
  let endsOpen ← source.code.standsAt? '(' last
  let start := if endsOpen then last else m.span.stop
  let opened :=
    match rule.body with
    | .arrow => arrowBodyOpen? source.code start
    | .block | .blockOrLine => bodyOpen? source.code start
  match opened with
  | some opened =>
    let blockEnd := source.braceBlockEnd opened
    return ⟨some ⟨name, rule.kind, m.span.start, opened, blockEnd.line⟩, blockEnd.unterminated⟩
  | none =>
    if rule.body = .block then return .nothing
    return ⟨some ⟨name, rule.kind, m.span.start, m.span.stop, source.lineAt m.span.stop⟩, false⟩

/-- What the rules find in a source, one rule after another. -/
def findings? (source : Source) : Option (List Finding) := do
  let found ← rules.mapM fun rule => (rule.header.findAll source.code).mapM (definitionAt? source rule)
  return found.flatten

/-- The targets of the import lines of a source. They may stand in quotes, so they are read off the text. -/
def includes? (source : Source) : Option (List Text) := do
  let targets ← importLines.mapM (·.trimmedGroups 1 source.text)
  return targets.flatten.filter fun target => !target.isEmpty

end CodeAtlas.Braces
