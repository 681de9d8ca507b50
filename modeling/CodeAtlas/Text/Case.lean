import CodeAtlas.Text.Case.Tables
import CodeAtlas.Text.Word

/-!
# Small and capital forms

* `lowercase`: every capital is replaced by its small form. A capital sigma becomes the final form at
  the end of a word, that is, after a cased character and not before one.
* `uppercase`: every small letter is replaced by its capital form, which may be several characters.
-/

namespace CodeAtlas.Text

/-- Whether a character has case. -/
def isCased (c : Char) : Bool :=
  if c.toNat < 128 then c.isAlpha else inRanges casedRanges c.toNat

/-- Whether a character is passed over in the search for a cased neighbour. -/
def isCaseIgnorable (c : Char) : Bool :=
  if c.toNat < 128 then c == '\'' || c == '.' || c == ':' || c == '^' || c == '\x60'
  else inRanges caseIgnorableRanges c.toNat

/-- Whether the first character that is not passed over has case. -/
def meetsCased (text : Text) : Bool :=
  match text.dropWhile isCaseIgnorable with
  | [] => false
  | c :: _ => isCased c

/-- The small form of a capital sigma between the reversed text `before` it and the text after it. -/
def lowerSigma (before after : Text) : Char :=
  if meetsCased before && !meetsCased after then 'ς' else 'σ'

/-- The small form of a character by itself. -/
def lowerChar (c : Char) : Text :=
  if c.toNat < 128 then [c.toLower]
  else if c.toNat == 0x130 then ['i', Char.ofNat 0x307]
  else
    match lowerRuns.findSome? (·.image? c.toNat) with
    | some n => [Char.ofNat n]
    | none => [c]

/-- The small form of a text whose reversed left context is `before`. -/
def lowercaseAfter (before : Text) : Text → Text
  | [] => []
  | c :: rest =>
    (if c == 'Σ' then [lowerSigma before rest] else lowerChar c) ++ lowercaseAfter (c :: before) rest

/-- The small form of a text. -/
def lowercase (text : Text) : Text :=
  lowercaseAfter [] text

/-- The capital form of a character. -/
def upperChar (c : Char) : Text :=
  if c.toNat < 128 then [c.toUpper]
  else
    match upperExpansions.lookup c.toNat with
    | some sequence => sequence.map Char.ofNat
    | none =>
      match upperRuns.findSome? (·.image? c.toNat) with
      | some n => [Char.ofNat n]
      | none => [c]

/-- The capital form of a text. -/
def uppercase (text : Text) : Text :=
  text.flatMap upperChar

end CodeAtlas.Text
