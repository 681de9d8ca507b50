import CodeAtlas.Text.Blank
import CodeAtlas.Text.Word

/-!
# Patterns

A pattern describes stretches of text, with a preference among the ways to match. Alternatives are
tried in order, and a repetition prefers more rounds or fewer.

* `CharClass`: a set of characters, given by its members or by what it leaves out.
* `Pattern`: characters, sequence, ordered choice, repetition, marks and conditions on the place.
* `Pattern.numbered`: gives each character position of a pattern a number of its own, by which the
  search tells its threads apart.
-/

namespace CodeAtlas

/-- A part of a character class. -/
inductive CharClass.Item where
  /-- One character. -/
  | char (c : Char)
  /-- All characters between two bounds, both included. -/
  | range (low high : Char)
  /-- The word characters. -/
  | word
  /-- The blank characters. -/
  | blank
deriving DecidableEq

/-- Whether a character belongs to a part of a class. -/
def CharClass.Item.contains (c : Char) : CharClass.Item → Bool
  | .char d => c == d
  | .range low high => low ≤ c && c ≤ high
  | .word => Text.isWord c
  | .blank => Text.isBlank c

/-- A set of characters: the union of its items, or all that is outside of it. -/
structure CharClass where
  /-- The parts of the class. -/
  items : List CharClass.Item
  /-- Whether the class holds the characters outside of its parts. -/
  negated : Bool := false
deriving DecidableEq

namespace CharClass

/-- Whether a character belongs to a class. -/
def contains (cls : CharClass) (c : Char) : Bool :=
  (cls.items.any (·.contains c)) != cls.negated

/-- The word characters. -/
def word : CharClass := ⟨[.word], false⟩

/-- The blank characters. -/
def blank : CharClass := ⟨[.blank], false⟩

/-- ASCII letters and the underscore. -/
def asciiStart : CharClass := ⟨[.range 'A' 'Z', .range 'a' 'z', .char '_'], false⟩

/-- The characters of a string. -/
def oneOf (chars : String) : CharClass := ⟨chars.toList.map .char, false⟩

/-- All characters but those of a string. -/
def noneOf (chars : String) : CharClass := ⟨chars.toList.map .char, true⟩

/-- A class together with the characters of a string. -/
def or (cls : CharClass) (chars : String) : CharClass :=
  { cls with items := cls.items ++ chars.toList.map .char }

end CharClass

/-- A pattern, matched from some place of a text onwards. -/
inductive Pattern where
  /-- Matches no character. -/
  | empty
  /-- One character of a class, at the numbered position of the pattern. -/
  | char (position : Nat) (cls : CharClass)
  /-- One pattern after another. -/
  | seq (first second : Pattern)
  /-- The first alternative, or else the second. -/
  | choice (first second : Pattern)
  /-- Any number of rounds, as many as possible if `greedy`, else as few as possible. A round that
  matches no character is not counted. -/
  | many (greedy : Bool) (body : Pattern)
  /-- Records the offset of the place in a slot. -/
  | mark (slot : Nat)
  /-- The place is the start of the text or follows a line feed. -/
  | lineStart
  /-- A word character stands on exactly one side of the place. -/
  | wordEdge

namespace Pattern

instance : Append Pattern := ⟨seq⟩

instance : OrOp Pattern := ⟨choice⟩

/-- One character of a class. -/
def one (cls : CharClass) : Pattern := char 0 cls

/-- The characters of a string, in order. -/
def lit (s : String) : Pattern :=
  s.toList.foldr (fun c rest => seq (one ⟨[.char c], false⟩) rest) empty

/-- One of some strings, the earlier preferred. -/
def anyOf : List String → Pattern
  | [] => empty
  | [s] => lit s
  | s :: others => choice (lit s) (anyOf others)

/-- One of the characters of a string. -/
def oneOf (chars : String) : Pattern := one (.oneOf chars)

/-- A character that is not in a string. -/
def noneOf (chars : String) : Pattern := one (.noneOf chars)

/-- As many rounds as possible. -/
def star (p : Pattern) : Pattern := many true p

/-- As few rounds as possible. -/
def starLazy (p : Pattern) : Pattern := many false p

/-- At least one round, as many as possible. -/
def plus (p : Pattern) : Pattern := seq p (many true p)

/-- At least one round, as few as possible. -/
def plusLazy (p : Pattern) : Pattern := seq p (many false p)

/-- The pattern if possible, else nothing. -/
def opt (p : Pattern) : Pattern := choice p empty

/-- Records where the pattern starts and ends, as the group of the given number. -/
def group (number : Nat) (p : Pattern) : Pattern :=
  seq (mark (2 * number)) (seq p (mark (2 * number + 1)))

/-- The pattern with its character positions numbered from `next` on, and the next free number. -/
def numberFrom (next : Nat) : Pattern → Pattern × Nat
  | empty => (empty, next)
  | char _ cls => (char next cls, next + 1)
  | seq a b =>
    let (a', next) := numberFrom next a
    let (b', next) := numberFrom next b
    (seq a' b', next)
  | choice a b =>
    let (a', next) := numberFrom next a
    let (b', next) := numberFrom next b
    (choice a' b', next)
  | many greedy body =>
    let (body', next) := numberFrom next body
    (many greedy body', next)
  | mark slot => (mark slot, next)
  | lineStart => (lineStart, next)
  | wordEdge => (wordEdge, next)

/-- The pattern with its character positions numbered from left to right. -/
def numbered (p : Pattern) : Pattern :=
  (numberFrom 0 p).1

end Pattern

end CodeAtlas
