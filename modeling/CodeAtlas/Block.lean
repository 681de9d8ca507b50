import CodeAtlas.Source
import CodeAtlas.Text.Blank

/-!
# Blocks

Where a block of code ends: at the brace that closes it, or with the last line indented deeper than its
header.

* `closing?`: the partner of an opening bracket.
* `bodyOpen?`: the brace that opens the body after a header.
* `Source.braceBlockEnd`: the last line of a block in braces.
* `Source.indentedBlockEnd`: the last line of an indented block.
-/

namespace CodeAtlas

/-- The offset at which `depth` open brackets are closed in code that stands at `offset`. -/
def closingFrom? (opener closer : Char) (depth offset : Nat) : Text → Option Nat
  | [] => none
  | c :: rest =>
    let next := offset + c.utf8Size
    if c == opener then closingFrom? opener closer (depth + 1) next rest
    else if c == closer then
      if depth ≤ 1 then some offset else closingFrom? opener closer (depth - 1) next rest
    else closingFrom? opener closer depth next rest

/-- The offset of the bracket that closes the one at an offset. There is none if no opening bracket
stands there, or if it is never closed. -/
def closing? (opener closer : Char) (code : Text) (position : Nat) : Option Nat :=
  match code.seek position with
  | (_, []) => none
  | (offset, c :: rest) =>
    if offset == position && c == opener then closingFrom? opener closer 1 (offset + c.utf8Size) rest
    else none

/-- The offset of the brace that closes the one at an offset. -/
def closingBrace? (code : Text) (position : Nat) : Option Nat :=
  closing? '\x7b' '\x7d' code position

/-- The offset of the parenthesis that closes the one at an offset. -/
def closingParen? (code : Text) (position : Nat) : Option Nat :=
  closing? '(' ')' code position

/-- The first opening brace outside of the brackets that were opened on the way, in code that stands at
`offset`; none if a semicolon or a closing brace comes first. -/
def bodyOpenFrom? (depth offset : Nat) : Text → Option Nat
  | [] => none
  | c :: rest =>
    let next := offset + c.utf8Size
    if c == '(' || c == '[' then bodyOpenFrom? (depth + 1) next rest
    else if c == ')' || c == ']' then bodyOpenFrom? (depth - 1) next rest
    else if depth == 0 && c == '\x7b' then some offset
    else if depth == 0 && (c == ';' || c == '\x7d') then none
    else bodyOpenFrom? depth next rest

/-- The offset of the brace that opens the body of a header which ends at `start`. -/
def bodyOpen? (code : Text) (start : Nat) : Option Nat :=
  let (offset, rest) := code.seek start
  bodyOpenFrom? 0 offset rest

/-- Where a block ends. -/
structure BlockEnd where
  /-- The last line of the block. -/
  line : Nat
  /-- Whether the end of the file came before the end of the block. -/
  unterminated : Bool
deriving DecidableEq, Repr

/-- The column after the spaces and tabs at the start of a line, if they start at column `width`. A tab
goes on to the next multiple of eight. -/
def indentFrom (width : Nat) : Text → Nat
  | [] => width
  | c :: rest =>
    if c == ' ' then indentFrom (width + 1) rest
    else if c == '\t' then indentFrom ((width / 8 + 1) * 8) rest
    else width

/-- The width of the indentation of a line. -/
def indentWidth (line : Text) : Nat :=
  indentFrom 0 line

namespace Source

/-- The end of the block in braces that opens at an offset. -/
def braceBlockEnd (source : Source) (start : Nat) : BlockEnd :=
  match closingBrace? source.code start with
  | some close => ⟨source.lineAt close, false⟩
  | none => ⟨max source.lineCount (source.lineAt start), true⟩

/-- The last of the given lines that belongs to the block, or `last`: blank lines are passed over, and a
line indented by at most `indent` ends the block. -/
def indentedBlockEndFrom (source : Source) (indent last : Nat) : List Nat → Nat
  | [] => last
  | line :: rest =>
    let code := source.codeLines line line
    if (Text.trim code).isEmpty then source.indentedBlockEndFrom indent last rest
    else if indentWidth code ≤ indent then last
    else source.indentedBlockEndFrom indent line rest

/-- The last line of the block below a header that ends on line `headerEnd` and is indented by
`indent`. -/
def indentedBlockEnd (source : Source) (headerEnd indent : Nat) : Nat :=
  source.indentedBlockEndFrom indent headerEnd
    (List.range' (headerEnd + 1) (source.lineCount - headerEnd))

end Source

end CodeAtlas
