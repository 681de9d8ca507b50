import CodeAtlas.Text.WordTable
import CodeAtlas.Text.Basic

/-!
# Word characters

The characters identifiers are made of: letters, marks, decimal digits, connector punctuation such as
the underscore, and join controls.
-/

namespace CodeAtlas.Text

/-- Whether a number lies in one of the ranges of a table. -/
def inRanges (table : Array (Nat × Nat)) (n : Nat) : Bool :=
  table.any fun (low, high) => low ≤ n && n ≤ high

/-- Whether a character is an ASCII letter or an underscore. -/
def isAsciiStart (c : Char) : Bool :=
  ('a' ≤ c && c ≤ 'z') || ('A' ≤ c && c ≤ 'Z') || c == '_'

/-- Whether a character can stand inside a word. -/
def isWord (c : Char) : Bool :=
  if c.toNat < 128 then isAsciiStart c || ('0' ≤ c && c ≤ '9') else inRanges wordRanges c.toNat

end CodeAtlas.Text
