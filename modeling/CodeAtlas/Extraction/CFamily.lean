import CodeAtlas.Extraction.Basic

/-!
# Definitions with a type in front

The rules for C and C++. A function is a name with parameters and a block, with a return type or a class
in front of it or initialisers behind it. A record is a struct, class, union or enum with a block; a
record without a name takes the one that its typedef gives it.
-/

namespace CodeAtlas.CFamily

open Pattern

/-- A type name as far as it goes without blanks, with its arguments and stars. -/
def typeWord : Pattern :=
  one .asciiStart ++ star (one (.or .word "<>,*&"))

/-- A function header up to its opening parenthesis, on a line of its own; the name is group 1. -/
def functionHeader : Pattern :=
  numbered <|
    lineStart ++ gap ++
      starLazy (typeWord ++ star (lit "::" ++ typeWord) ++ plus (one (.or .blank "*&"))) ++
      group 1 (one (.or .asciiStart "~") ++ star (one (.or .word ":~"))) ++ blanks ++ lit "("

/-- A member with the value in parentheses or braces that it is initialised with. -/
def initializer : Pattern :=
  plus (one (.or .word ":<>")) ++ blanks ++
    (lit "(" ++ starLazy (noneOf ";\x7b\x7d") ++ lit ")" |||
      lit "\x7b" ++ star (noneOf ";\x7b\x7d") ++ lit "\x7d")

/-- What may stand between the parameters of a function and its block, which it ends with; the list of
initialisers is group 1. -/
def functionTail : Pattern :=
  numbered <|
    blanks ++
      star
        ((anyOf ["const", "volatile", "noexcept", "override", "final"] |||
            lit "throw" ++ blanks ++ lit "(" ++ star (noneOf ")") ++ lit ")") ++ blanks |||
          lit "->" ++ blanks ++ plusLazy (one (.or .word ":<>,*& ")) ++ blanks) ++
      opt
        (group 1
          (lit ":" ++ blanks ++ initializer ++ star (blanks ++ lit "," ++ blanks ++ initializer) ++
            blanks)) ++
      lit "\x7b"

/-- A record header up to its block; the name is group 1. -/
def recordHeader : Pattern :=
  numbered <|
    lineStart ++ gap ++ opt (lit "typedef" ++ space) ++
      opt (lit "template" ++ gap ++ lit "<" ++ star (noneOf ">") ++ lit ">" ++ gap) ++
      anyOf ["struct", "class", "union", "enum"] ++ opt (space ++ lit "class") ++ space ++
      opt (one ⟨[.range 'A' 'Z', .char '_'], false⟩ ++
        star (one ⟨[.range 'A' 'Z', .range '0' '9', .char '_'], false⟩) ++ space) ++
      group 1 name ++ star (noneOf ";\x7b()=") ++ lit "\x7b"

/-- The header of a typedef of a record without a name, up to its block. -/
def anonymousTypedef : Pattern :=
  numbered <|
    lineStart ++ gap ++ lit "typedef" ++ space ++ anyOf ["struct", "union", "enum"] ++ gap ++
      lit "\x7b"

/-- The name that follows the block of a typedef, group 1. -/
def typedefName : Pattern :=
  numbered <| star (one (.or .blank "*")) ++ group 1 name

/-- An include line; the file is group 1. -/
def includeLine : Pattern :=
  numbered <|
    lineStart ++ gap ++ lit "#" ++ gap ++ lit "include" ++ gap ++ oneOf "<\"" ++
      group 1 (plus (noneOf ">\"\n")) ++ oneOf ">\""

/-- The characters before the first pair of colons. -/
def beforeColons : Text → Text
  | [] => []
  | ':' :: ':' :: _ => []
  | c :: rest => c :: beforeColons rest

/-- What follows the last pair of colons in a name. -/
def shortName (qualified : Text) : Text :=
  (beforeColons qualified.reverse).reverse

/-- The function whose header a match is. A header without a type counts only if its name is qualified or
initialisers follow. -/
def functionAt? (source : Source) (m : Match) : Option Finding := do
  let some group := m.group? 1 | return .nothing
  let qualified ← source.code.slice? group.start group.stop
  let short := shortName qualified
  if isReserved short || short.isEmpty then return .nothing
  let openParen ← Text.before? m.span.stop
  let some closeParen := closingParen? source.code openParen | return .nothing
  let rest ← source.code.sliceFrom? (closeParen + 1)
  let some tail := functionTail.matchStart? rest | return .nothing
  let before ← source.code.slice? m.span.start group.start
  if (Text.trim before).isEmpty && !Text.occursIn [':', ':'] qualified && (tail.group? 1).isNone then
    return .nothing
  let openBrace := closeParen + tail.span.stop
  let blockEnd := source.braceBlockEnd openBrace
  return ⟨some ⟨short, .function, m.span.start, openBrace, blockEnd.line⟩, blockEnd.unterminated⟩

/-- The record whose header a match is. -/
def recordAt? (source : Source) (m : Match) : Option Finding := do
  let some group := m.group? 1 | return .nothing
  let name ← source.code.slice? group.start group.stop
  let openBrace ← Text.before? m.span.stop
  let blockEnd := source.braceBlockEnd openBrace
  return ⟨some ⟨name, .structOrClass, m.span.start, openBrace, blockEnd.line⟩, blockEnd.unterminated⟩

/-- The record without a name whose typedef a match opens. It ends where its name does. -/
def typedefAt? (source : Source) (m : Match) : Option Finding := do
  let openBrace ← Text.before? m.span.stop
  let some close := closingBrace? source.code openBrace | return ⟨none, true⟩
  let rest ← source.code.sliceFrom? (close + 1)
  let some named := typedefName.matchStart? rest | return .nothing
  let some group := named.group? 1 | return .nothing
  let name ← rest.slice? group.start group.stop
  let endLine := source.lineAt (close + 1 + group.stop)
  return ⟨some ⟨name, .structOrClass, m.span.start, openBrace, endLine⟩, false⟩

/-- What the rules find in a source: functions, then records, then typedefs. -/
def findings? (source : Source) : Option (List Finding) := do
  let functions ← (functionHeader.findAll source.code).mapM (functionAt? source)
  let records ← (recordHeader.findAll source.code).mapM (recordAt? source)
  let typedefs ← (anonymousTypedef.findAll source.code).mapM (typedefAt? source)
  return functions ++ records ++ typedefs

/-- The files that a source includes. They stand in quotes, so they are read off the text. -/
def includes? (source : Source) : Option (List Text) :=
  includeLine.trimmedGroups 1 source.text

end CodeAtlas.CFamily
