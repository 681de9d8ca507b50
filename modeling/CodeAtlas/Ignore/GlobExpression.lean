import CodeAtlas.Ignore.Glob

/-!
# Expressions of globs

Globs that are more than a fixed text are put into the form of an expression before they are used, and an
expression may be nested only so far. One glob that goes further makes the whole set of globs that it belongs
to unusable.

* `Expression`: the form of a glob, with its `depth` and its `text`.
* `Glob.expression`: the expression of a glob.
* `Glob.isFixed`, `Glob.endsWithExtension`: the globs that need no expression, and those whose expression
  stands alone.
* `Glob.setError?`: why a set of globs cannot be used.
-/

namespace CodeAtlas

/-- What a glob is turned into. -/
inductive Expression where
  /-- The byte itself. -/
  | literal (b : UInt8)
  /-- A setting, or the start or the end of a path. -/
  | mark (text : String)
  /-- Any byte. -/
  | anyByte
  /-- A byte of some ranges, or of none of them. -/
  | oneOf (negated : Bool) (ranges : List (UInt8 × UInt8))
  /-- An expression with a sign that says how often it counts. -/
  | repeated (body : Expression) (sign : Char)
  /-- An expression in parentheses. -/
  | group (body : Expression)
  /-- One of several expressions. -/
  | alternation (branches : List Expression)
  /-- Expressions one after the other. -/
  | sequence (parts : List Expression)
deriving Repr, Inhabited

namespace Expression

/-- Expressions one after the other; a single one stays as it is. -/
def sequenceOf : List Expression → Expression
  | [part] => part
  | parts => .sequence parts

/-- One of several expressions; a single one stays as it is. -/
def alternationOf : List Expression → Expression
  | [branch] => branch
  | branches => .alternation branches

mutual

/-- How deep an expression is nested. A class of several ranges counts as two steps, one of a single range
as one step. -/
def depth : Expression → Nat
  | .literal _ => 0
  | .mark _ => 0
  | .anyByte => 0
  | .oneOf _ ranges => if ranges.length ≤ 1 then 1 else 2
  | .repeated body _ => depth body + 1
  | .group body => depth body + 1
  | .alternation branches => maxDepth branches + 1
  | .sequence parts => maxDepth parts + 1

/-- The largest depth of some expressions. -/
def maxDepth : List Expression → Nat
  | [] => 0
  | e :: rest => max (depth e) (maxDepth rest)

end

/-- The characters that are written with a backslash in front. -/
def escaped : List Char :=
  "\\.+*?()|[]\x7b\x7d^$#&-~".toList

/-- How a byte is written. -/
def byteText (b : UInt8) : String :=
  if b < 128 then
    let c := Char.ofNat b.toNat
    if escaped.contains c then String.ofList ['\\', c] else c.toString
  else "\\x" ++ String.ofList (Nat.toDigits 16 b.toNat)

/-- How a range of bytes is written. -/
def rangeText (range : UInt8 × UInt8) : String :=
  if range.1 == range.2 then byteText range.1 else byteText range.1 ++ "-" ++ byteText range.2

mutual

/-- How an expression is written. -/
def text : Expression → String
  | .literal b => byteText b
  | .mark text => text
  | .anyByte => "."
  | .oneOf negated ranges =>
    "[" ++ (if negated then "^" else "") ++ String.join (ranges.map rangeText) ++ "]"
  | .repeated body sign => text body ++ sign.toString
  | .group body => "(?:" ++ text body ++ ")"
  | .alternation branches => "|".intercalate (texts branches)
  | .sequence parts => String.join (texts parts)

/-- How some expressions are written. -/
def texts : List Expression → List String
  | [] => []
  | e :: rest => text e :: texts rest

end

end Expression

namespace Glob

/-- Any number of any bytes. -/
def anyBytes : Expression :=
  .repeated .anyByte '*'

/-- A byte other than a slash. -/
def noSlash : Expression :=
  .oneOf true [(slash, slash)]

mutual

/-- The expressions of a part of a glob. Alternatives without any expression do not count. -/
def tokenExpressions : GlobToken → List Expression
  | .literal c => (String.utf8EncodeChar c).map .literal
  | .any => [noSlash]
  | .star => [.repeated noSlash '*']
  | .leadingDirs =>
    [.group (.alternation [.repeated (.literal slash) '?', .sequence [anyBytes, .literal slash]])]
  | .innerDirs =>
    [.group (.alternation [.literal slash, .sequence [.literal slash, anyBytes, .literal slash]])]
  | .trailingDirs => [.literal slash, anyBytes]
  | .oneOf negated ranges => [.oneOf negated (ranges.flatMap byteRanges)]
  | .alternates branches =>
    match branchExpressions branches with
    | [] => []
    | branches => [.group (.alternationOf branches)]

/-- The expressions of the parts of a glob. -/
def partExpressions : List GlobToken → List Expression
  | [] => []
  | token :: rest => tokenExpressions token ++ partExpressions rest

/-- The expressions of some globs, without those that have no parts. -/
def branchExpressions : List (List GlobToken) → List Expression
  | [] => []
  | branch :: rest =>
    match partExpressions branch with
    | [] => branchExpressions rest
    | parts => .sequenceOf parts :: branchExpressions rest

end

/-- The expression of a glob. -/
def expression (glob : Glob) : Expression :=
  let parts :=
    match glob with
    | [.leadingDirs] => [anyBytes]
    | glob => partExpressions glob
  .sequence ([.mark "(?-u)", .mark "^"] ++ parts ++ [.mark "$"])

/-- How deep an expression may be nested. -/
def maxNesting : Nat := 250

/-- Whether the expression of a glob is nested too deep. -/
def isTooDeep (glob : Glob) : Bool :=
  maxNesting < glob.expression.depth

/-- Whether a part of a glob is a character that stands for itself. -/
def isLiteral : GlobToken → Bool
  | .literal _ => true
  | _ => false

/-- Whether a part of a glob can be inside an extension. -/
def isExtensionPart : GlobToken → Bool
  | .literal c => c != '.' && c != '/'
  | _ => false

/-- Whether a glob is a fixed text, on its own or below any directory, a fixed extension, or a fixed directory
with all that is inside. Such a glob needs no expression. -/
def isFixed (glob : Glob) : Bool :=
  match glob with
  | [] => false
  | .leadingDirs :: .star :: .literal '.' :: rest => rest.all isExtensionPart
  | .leadingDirs :: rest => !rest.isEmpty && rest.all isLiteral
  | glob => glob.all isLiteral || (glob.getLast? matches some .trailingDirs && glob.dropLast.all isLiteral)

/-- Whether a glob ends with a dot and characters that stand for themselves, none of them a slash. -/
def endsWithExtension (glob : Glob) : Bool :=
  match glob.reverse.dropWhile isExtensionPart with
  | .literal '.' :: _ => true
  | _ => false

/-- Why a set of globs cannot be used. -/
inductive SetError where
  /-- An expression that stands alone is nested too deep. -/
  | alone (expression : Expression)
  /-- The expression with a number, among those that are used together, is nested too deep. -/
  | together (number : Nat)
deriving Repr

/-- The text of an error. -/
def SetError.message : SetError → String
  | alone e => s!"error parsing glob '{e.text}': error parsing pattern 0"
  | together number => s!"error parsing pattern {number}"

/-- Why a set of globs cannot be used, if it cannot. The expressions that stand alone come first. -/
def setError? (globs : List Glob) : Option SetError :=
  let (single, others) := (globs.filter fun glob => !glob.isFixed).partition endsWithExtension
  match single.find? isTooDeep with
  | some glob => some (.alone glob.expression)
  | none => (others.findIdx? isTooDeep).map .together

end Glob

end CodeAtlas
