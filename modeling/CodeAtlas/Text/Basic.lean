/-!
# Texts and byte offsets

A text is a list of characters. Positions in a text are counted in bytes of its UTF-8 form, so a
character advances the position by its width, and an offset may fall inside a character.

* `Text.size`: the number of bytes of a text.
* `Text.sliceFrom?`, `Text.sliceTo?`, `Text.slice?`: cutting a text at offsets, which succeeds exactly
  when the offsets are character boundaries in range.
* `Text.before?`: the offset before another, which only the first one lacks.
* `Text.seek`: the rest of a text from an offset on, with the offset at which it starts.
* `Text.standsAt?`: whether a character stands at an offset, which has to be in range.
* `Text.segments`: the pieces of a text between occurrences of a separator.
-/

namespace CodeAtlas

/-- A text is the list of its characters. -/
abbrev Text := List Char

/-- A stretch of bytes of a text. -/
structure Span where
  /-- The offset of the first byte. -/
  start : Nat
  /-- The offset after the last byte. -/
  stop : Nat
deriving DecidableEq, Repr

namespace Text

/-- The number of bytes a text takes in UTF-8. -/
def size : Text → Nat
  | [] => 0
  | c :: rest => c.utf8Size + size rest

/-- The part of a text from a byte offset on; `none` when the offset lies inside a character or beyond
the end. -/
def sliceFrom? : Nat → Text → Option Text
  | 0, text => some text
  | _ + 1, [] => none
  | start + 1, c :: rest =>
    if c.utf8Size ≤ start + 1 then sliceFrom? (start + 1 - c.utf8Size) rest else none

/-- The part of a text up to a byte offset; `none` when the offset lies inside a character or beyond the
end. -/
def sliceTo? : Nat → Text → Option Text
  | 0, _ => some []
  | _ + 1, [] => none
  | stop + 1, c :: rest =>
    if c.utf8Size ≤ stop + 1 then (sliceTo? (stop + 1 - c.utf8Size) rest).map (c :: ·) else none

/-- The part of a text between two byte offsets, both of which must be character boundaries. -/
def slice? (start stop : Nat) (text : Text) : Option Text :=
  if start ≤ stop then (sliceFrom? start text).bind (sliceTo? (stop - start)) else none

/-- The part of a text between two byte offsets, empty when they do not cut the text. -/
def slice (start stop : Nat) (text : Text) : Text :=
  (slice? start stop text).getD []

/-- The byte offset before another; none before the first. -/
def before? : Nat → Option Nat
  | 0 => none
  | offset + 1 => some offset

/-- The rest of a text from the first character that starts at a byte offset or after it, with the offset
of that character. The text itself stands at `offset`. -/
def seekFrom (start offset : Nat) : Text → Nat × Text
  | [] => (offset, [])
  | c :: rest =>
    if offset < start then seekFrom start (offset + c.utf8Size) rest else (offset, c :: rest)

/-- The rest of a text from the first character that starts at a byte offset or after it, with the offset
of that character. -/
def seek (start : Nat) (text : Text) : Nat × Text :=
  seekFrom start 0 text

/-- The character that starts at a byte offset. -/
def charAt? (position : Nat) (text : Text) : Option Char :=
  let (offset, rest) := seek position text
  if offset = position then rest.head? else none

/-- Whether a character starts at a byte offset; none if the offset is beyond the last byte. -/
def standsAt? (c : Char) (position : Nat) (text : Text) : Option Bool :=
  if position < text.size then some (text.charAt? position == some c) else none

/-- The pieces of a text between occurrences of a separator; one more than there are separators. -/
def segments (separator : Char) : Text → List Text
  | [] => [[]]
  | c :: rest =>
    if c = separator then [] :: segments separator rest
    else
      match segments separator rest with
      | [] => [[c]]
      | first :: others => (c :: first) :: others

/-- Whether one text occurs inside another, without a gap. -/
def occursIn (part : Text) : Text → Bool
  | [] => part.isEmpty
  | c :: rest => part.isPrefixOf (c :: rest) || occursIn part rest

/-- Applies an operation on texts to a string. -/
def onString (f : Text → Text) (s : String) : String :=
  String.ofList (f s.toList)

end Text

end CodeAtlas
