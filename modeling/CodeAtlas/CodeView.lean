import CodeAtlas.Language
import CodeAtlas.Text.Basic

/-!
# The code view of a text

The code view is the text with its comments and string literals blanked out. A blanked character is
replaced by as many spaces as it has bytes, so the offsets in the view are those in the text. Line feeds
in comments and strings are kept.

* `CodeView.Mode`: what the reader is inside of.
* `CodeView.advance`: whether the next character is code, and the mode after it.
* `codeView`: the view of a text.
-/

namespace CodeAtlas

namespace CodeView

/-- What the reader of a text is inside of. -/
inductive Mode where
  /-- Code. -/
  | code
  /-- A comment that ends with the line. -/
  | lineComment
  /-- A comment that ends at a star and a slash. -/
  | blockComment
  /-- A string that ends at a quote, and at the end of the line unless it may span lines. -/
  | quoted (quote : Char) (spans : Bool)
  /-- A string in which the next character stands after a backslash. -/
  | escaped (quote : Char) (spans : Bool)
  /-- A string that ends at three quotes. -/
  | tripled (quote : Char)
  /-- The rest of a literal or delimiter: some characters to blank, then another mode. -/
  | within (count : Nat) (mode : Mode)
deriving DecidableEq, Repr

/-- The mode in which a line starts if its predecessor ended in the given one. -/
def Mode.afterLine : Mode → Mode
  | lineComment => code
  | quoted _ false => code
  | mode => mode

/-- The mode after `count` more blanked characters. -/
def Mode.past (count : Nat) (mode : Mode) : Mode :=
  if count = 0 then mode else within count mode

/-- The number of characters of the character literal that starts with a quote before `rest`; zero if
none does. A literal holds one character, or a backslash, a character, and up to nine more on a line. -/
def literalLength : Text → Nat
  | [] => 0
  | '\\' :: rest =>
    let tail := (rest.drop 1).take 10
    match tail.findIdx? (fun c => c == '\'' || c == '\n') with
    | some i => if tail[i]? == some '\'' then i + 4 else 0
    | none => 0
  | '\n' :: _ => 0
  | _ :: '\'' :: _ => 3
  | _ :: _ => 0

/-- What a character of code is: whether it stays in the view, and the mode after it. -/
def advanceCode (family : RuleFamily) (c : Char) (rest : Text) : Bool × Mode :=
  match family with
  | .python =>
    if c == '#' then (false, .lineComment)
    else if c == '"' || c == '\'' then
      if rest.take 2 == [c, c] then (false, .within 2 (.tripled c)) else (false, .quoted c false)
    else (true, .code)
  | .cFamily | .generic =>
    if c == '/' && rest.head? == some '/' then (false, .within 1 .lineComment)
    else if c == '/' && rest.head? == some '*' then (false, .within 1 .blockComment)
    else if c == '"' then (false, .quoted c false)
    else if c == '\x60' then (false, .quoted c true)
    else if c == '\'' then
      match literalLength rest with
      | 0 => (true, .code)
      | n + 1 => (false, .past n .code)
    else (true, .code)

/-- Whether a character stays in the view, and the mode after it. -/
def advance (family : RuleFamily) (mode : Mode) (c : Char) (rest : Text) : Bool × Mode :=
  match mode with
  | .within n after => (false, .past (n - 1) after)
  | .escaped quote spans => (c == '\n', .quoted quote spans)
  | mode =>
    if c == '\n' then (true, mode.afterLine)
    else
      match mode with
      | .code => advanceCode family c rest
      | .blockComment =>
        if c == '*' && rest.head? == some '/' then (false, .within 1 .code) else (false, mode)
      | .quoted quote spans =>
        if c == '\\' then (false, .escaped quote spans)
        else if c == quote then (false, .code)
        else (false, mode)
      | .tripled quote =>
        if c == '\\' then
          if rest.head? == none || rest.head? == some '\n' then (false, mode)
          else (false, .within 1 mode)
        else if c == quote && rest.take 2 == [quote, quote] then (false, .within 2 .code)
        else (false, mode)
      | mode => (false, mode)

/-- The spaces that stand for a blanked character. -/
def blanks (c : Char) : Text :=
  List.replicate c.utf8Size ' '

/-- The view of a text that is entered in a mode. -/
def viewFrom (family : RuleFamily) (mode : Mode) : Text → Text
  | [] => []
  | c :: rest =>
    let (kept, next) := advance family mode c rest
    (if kept then [c] else blanks c) ++ viewFrom family next rest

end CodeView

/-- The text with comments and string literals blanked out. -/
def codeView (family : RuleFamily) (text : Text) : Text :=
  CodeView.viewFrom family .code text

end CodeAtlas
