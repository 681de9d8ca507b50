import CodeAtlas.Ignore.Glob

/-!
# Reading globs

A glob is read from left to right. Brackets hold a class of characters, braces hold alternatives between
commas, and a backslash takes the meaning from the character after it. Two stars stand for directories
only where a slash or an end is on both sides of them; elsewhere they are two single stars.

* `Glob.parse`: the glob of a text, or the first fault in it.
* `GlobError`: what can be wrong with a glob.
-/

namespace CodeAtlas

/-- What is wrong with a glob. -/
inductive GlobError where
  | unclosedClass
  | invalidRange (low high : Char)
  | unopenedAlternates
  | unclosedAlternates
  | danglingEscape
deriving DecidableEq, Repr

/-- The text of an error. -/
def GlobError.message : GlobError → String
  | unclosedClass => "unclosed character class; missing ']'"
  | invalidRange low high => s!"invalid range; '{low}' > '{high}'"
  | unopenedAlternates =>
    "unopened alternate group; missing '\x7b' (maybe escape '\x7d' with '[\x7d]'?)"
  | unclosedAlternates =>
    "unclosed alternate group; missing '\x7d' (maybe escape '\x7b' with '[\x7b]'?)"
  | danglingEscape => "dangling '\\'"

namespace Glob

/-- A class of characters that was read, with the number of characters that it took. -/
structure ReadClass where
  negated : Bool
  ranges : List (Char × Char)
  taken : Nat
deriving DecidableEq, Repr

/-- Reads the ranges of a class up to its closing bracket; none if there is no such bracket. `ranges` holds
those before, the last one first, and `opened` says that a dash has opened the last one. A bracket or a dash
that comes first stands for itself, as does a dash that comes last. -/
def readRanges (negated : Bool) (taken : Nat) (ranges : List (Char × Char)) (opened : Bool) :
    Text → Except GlobError (Option ReadClass)
  | [] => .ok none
  | c :: rest =>
    match ranges with
    | [] => readRanges negated (taken + 1) [(c, c)] false rest
    | (low, high) :: others =>
      if c == ']' then
        let last := if opened then [('-', '-')] else []
        .ok (some ⟨negated, ranges.reverse ++ last, taken + 1⟩)
      else if opened then
        if c < low then .error (.invalidRange low c)
        else readRanges negated (taken + 1) ((low, c) :: others) false rest
      else if c == '-' then readRanges negated (taken + 1) ((low, high) :: others) true rest
      else readRanges negated (taken + 1) ((c, c) :: ranges) false rest

/-- Reads a class after its opening bracket. -/
def readClass (text : Text) : Except GlobError (Option ReadClass) :=
  match text with
  | '!' :: rest => readRanges true 1 [] false rest
  | '^' :: rest => readRanges true 1 [] false rest
  | rest => readRanges false 0 [] false rest

/-- A group of alternatives that is not closed yet. -/
structure OpenGroup where
  /-- The parts before the group, the last one first. -/
  outer : List GlobToken
  /-- The alternatives before the one that is read, the last one first. -/
  branches : List (List GlobToken)

/-- How far the reading of a glob has come. -/
structure Reading where
  /-- The parts of the alternative that is read, the last one first. -/
  tokens : List GlobToken := []
  /-- The open groups, the innermost first. -/
  groups : List OpenGroup := []
  /-- Whether a bracket was found that no other closes. The brackets after it stand for themselves. -/
  bracketLeftOpen : Bool := false

namespace Reading

/-- The reading with one more part. -/
def push (r : Reading) (token : GlobToken) : Reading :=
  { r with tokens := token :: r.tokens }

/-- The reading with two single stars more. -/
def pushStars (r : Reading) : Reading :=
  (r.push .star).push .star

/-- The reading in which directories take the place of the slash before them. -/
def pushDirs (r : Reading) (token : GlobToken) : Reading :=
  match r.tokens with
  | .leadingDirs :: _ => r
  | .trailingDirs :: _ => r
  | _ :: others => { r with tokens := token :: others }
  | [] => r.push token

/-- The reading after two stars, with the number of characters after them that they take. `previous` is
the character before the stars, and `rest` is the text after them. -/
def doubleStar (r : Reading) (previous : Option Char) (rest : Text) : Reading × Nat :=
  let next := rest.head?
  let inGroup := !r.groups.isEmpty
  if r.tokens.isEmpty then
    if next.isNone then (r.push .leadingDirs, 0)
    else if next == some '/' then (r.push .leadingDirs, 1)
    else (r.pushStars, 0)
  else if previous == some '/' || (inGroup && (previous == some ',' || previous == some '\x7b')) then
    if next.isNone || (inGroup && (next == some ',' || next == some '\x7d')) then
      (r.pushDirs .trailingDirs, 0)
    else if next == some '/' then (r.pushDirs .innerDirs, 1)
    else (r.pushStars, 0)
  else (r.pushStars, 0)

/-- The reading after an opening brace. -/
def openGroup (r : Reading) : Reading :=
  { r with tokens := [], groups := ⟨r.tokens, []⟩ :: r.groups }

/-- The reading after a comma: the next alternative inside a group, the character elsewhere. -/
def comma (r : Reading) : Reading :=
  match r.groups with
  | [] => r.push (.literal ',')
  | g :: groups =>
    { r with tokens := [], groups := { g with branches := r.tokens.reverse :: g.branches } :: groups }

/-- The reading after a closing brace. -/
def closeGroup (r : Reading) : Except GlobError Reading :=
  match r.groups with
  | [] => .error .unopenedAlternates
  | g :: groups =>
    let group := GlobToken.alternates (r.tokens.reverse :: g.branches).reverse
    .ok { r with tokens := group :: g.outer, groups := groups }

end Reading

/-- Reads a text. `skip` characters of it are already read, and `previous` is the character before it.
With `lenient`, a bracket that opens no class stands for itself. -/
def parseFrom (lenient : Bool) (r : Reading) (skip : Nat) (previous : Option Char) :
    Text → Except GlobError Glob
  | [] => if r.groups.isEmpty then .ok r.tokens.reverse else .error .unclosedAlternates
  | c :: rest =>
    match skip with
    | skip + 1 => parseFrom lenient r skip (some c) rest
    | 0 =>
      if c == '?' then parseFrom lenient (r.push .any) 0 (some c) rest
      else if c == '*' then
        match rest with
        | '*' :: after =>
          let (r, taken) := r.doubleStar previous after
          parseFrom lenient r (taken + 1) (some c) rest
        | _ => parseFrom lenient (r.push .star) 0 (some c) rest
      else if c == '[' && !r.bracketLeftOpen then
        match readClass rest with
        | .error e => .error e
        | .ok (some k) => parseFrom lenient (r.push (.oneOf k.negated k.ranges)) k.taken (some c) rest
        | .ok none =>
          if lenient then
            parseFrom lenient { r.push (.literal c) with bracketLeftOpen := true } 0 (some c) rest
          else .error .unclosedClass
      else if c == '\x7b' then parseFrom lenient r.openGroup 0 (some c) rest
      else if c == '\x7d' then
        match r.closeGroup with
        | .error e => .error e
        | .ok r => parseFrom lenient r 0 (some c) rest
      else if c == ',' then parseFrom lenient r.comma 0 (some c) rest
      else if c == '\\' then
        match rest with
        | [] => .error .danglingEscape
        | escaped :: _ => parseFrom lenient (r.push (.literal escaped)) 1 (some c) rest
      else parseFrom lenient (r.push (.literal c)) 0 (some c) rest

/-- The glob of a text. -/
def parse (lenient : Bool) (text : Text) : Except GlobError Glob :=
  parseFrom lenient {} 0 none text

end Glob

end CodeAtlas
