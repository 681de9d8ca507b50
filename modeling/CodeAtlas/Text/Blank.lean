import CodeAtlas.Text.Basic

/-!
# Blank characters

The characters that separate words, and what cutting a text at them gives.

* `isBlank`: the twenty-five white space characters of Unicode.
* `trim`: a text without the blanks at its two ends.
* `words`: the maximal stretches of a text without a blank.
* `lines`: the lines of a text, without the characters that end them.
* `isAsciiBlank`: the five ASCII characters that indent a header (a vertical tab is not one).
-/

namespace CodeAtlas.Text

/-- Whether a character is white space. -/
def isBlank (c : Char) : Bool :=
  let n := c.toNat
  (9 ≤ n && n ≤ 13) || n == 0x20 || n == 0x85 || n == 0xa0 || n == 0x1680 ||
    (0x2000 ≤ n && n ≤ 0x200a) || n == 0x2028 || n == 0x2029 || n == 0x202f || n == 0x205f ||
    n == 0x3000

/-- Whether a character is an ASCII space, tab, line feed, form feed or carriage return. -/
def isAsciiBlank (c : Char) : Bool :=
  c == ' ' || c == '\t' || c == '\n' || c == '\x0c' || c == '\r'

/-- A text without the characters of a class at its end. -/
def trimEndWhile (p : Char → Bool) (text : Text) : Text :=
  (text.reverse.dropWhile p).reverse

/-- A text without the blanks at its start and at its end. -/
def trim (text : Text) : Text :=
  trimEndWhile isBlank (text.dropWhile isBlank)

/-- The stretches of a text between blanks, the first of them preceded by `word`. -/
def wordsAfter (word : Text) : Text → List Text
  | [] => if word.isEmpty then [] else [word]
  | c :: rest =>
    if isBlank c then
      if word.isEmpty then wordsAfter [] rest else word :: wordsAfter [] rest
    else wordsAfter (word ++ [c]) rest

/-- The maximal stretches of a text that hold no blank. -/
def words (text : Text) : List Text :=
  wordsAfter [] text

/-- The words of a text with one space between neighbours. -/
def squeeze (text : Text) : Text :=
  [' '].intercalate (words text)

/-- A line without the carriage return at its end. -/
def dropReturn (line : Text) : Text :=
  if line.getLast? == some '\r' then line.dropLast else line

/-- The lines of a text: its pieces before line feeds, without a carriage return at their end. What follows
the last line feed counts only if it is not empty, and then as it stands. -/
def lines (text : Text) : List Text :=
  let pieces := segments '\n' text
  pieces.dropLast.map dropReturn ++ pieces.getLast?.toList.filter fun rest => !rest.isEmpty

end CodeAtlas.Text
