import CodeAtlas.Pattern.Basic

/-!
# Searching a text for a pattern

The search runs through the text once per starting place. It keeps the ways in which the match can
still go on as a list of threads, the preferred ones first. A thread that waits at the same position of
the pattern as a preferred one is dropped, because both have the same future. So the work per character
is bounded by the size of the pattern.

* `Pattern.threads`: the threads of a pattern at a place.
* `Pattern.matchAt?`: the preferred match that starts at a place.
* `Pattern.findAll`: the matches of a text from left to right, each as early as possible after the one
  before.
-/

namespace CodeAtlas

/-- A place in a text, between two characters. -/
structure Spot where
  /-- The number of bytes before the place. -/
  offset : Nat
  /-- The character before the place. -/
  before : Option Char
  /-- The character after the place. -/
  after : Option Char

/-- Whether a line starts at a place. -/
def Spot.startsLine (spot : Spot) : Bool :=
  match spot.before with
  | none => true
  | some c => c == '\n'

/-- Whether exactly one neighbour of a place is a word character. -/
def Spot.isWordEdge (spot : Spot) : Bool :=
  spot.before.any Text.isWord != spot.after.any Text.isWord

/-- Recorded offsets by slot, the latest first. -/
abbrev Marks := List (Nat × Nat)

/-- One way in which a match can go on from a place. -/
inductive Thread where
  /-- The match ends here. -/
  | done (marks : Marks)
  /-- The next character has to be in the class; then the remaining patterns follow. -/
  | wait (position : Nat) (cls : CharClass) (rest : List Pattern) (marks : Marks)

namespace Pattern

/-- The ways to match a pattern from a place, in order of preference. `rest` is what follows the
pattern; `next` gives the threads of `rest` at the same place. -/
def threads (spot : Spot) :
    Pattern → (rest : List Pattern) → (next : Marks → List Thread) → Marks → List Thread
  | empty, _, next, marks => next marks
  | char position cls, rest, _, marks => [.wait position cls rest marks]
  | seq a b, rest, next, marks => a.threads spot (b :: rest) (b.threads spot rest next) marks
  | choice a b, rest, next, marks =>
    a.threads spot rest next marks ++ b.threads spot rest next marks
  | many true body, rest, next, marks =>
    body.threads spot (many true body :: rest) (fun _ => []) marks ++ next marks
  | many false body, rest, next, marks =>
    next marks ++ body.threads spot (many false body :: rest) (fun _ => []) marks
  | mark slot, _, next, marks => next ((slot, spot.offset) :: marks)
  | lineStart, _, next, marks => if spot.startsLine then next marks else []
  | wordEdge, _, next, marks => if spot.isWordEdge then next marks else []

/-- The ways to match a list of patterns from a place, one after the other. -/
def threadsOf (spot : Spot) : List Pattern → Marks → List Thread
  | [], marks => [.done marks]
  | p :: rest, marks => p.threads spot rest (threadsOf spot rest) marks

end Pattern

namespace Thread

/-- The threads after reading a character that leads to `spot`. -/
def feed (spot : Spot) (c : Char) : Thread → List Thread
  | .done _ => []
  | .wait _ cls rest marks => if cls.contains c then Pattern.threadsOf spot rest marks else []

/-- Drops each thread that waits where a preferred one waits, and all that are less preferred than an
end of the match. -/
def settle (seen : List Nat) : List Thread → List Thread
  | [] => []
  | .done marks :: _ => [.done marks]
  | .wait position cls rest marks :: others =>
    if seen.contains position then settle seen others
    else .wait position cls rest marks :: settle (position :: seen) others

/-- The recorded offsets if the match can end here. -/
def finished? (threads : List Thread) : Option Marks :=
  match threads.getLast? with
  | some (.done marks) => some marks
  | _ => none

/-- Runs settled threads through the text from an offset on. The result is the end of the preferred
match with its marks; `best` is the end found so far. -/
def run (offset : Nat) (threads : List Thread) (best : Option (Nat × Marks)) :
    Text → Option (Nat × Marks)
  | [] => ((finished? threads).map (offset, ·)).or best
  | c :: rest =>
    let best := ((finished? threads).map (offset, ·)).or best
    let spot : Spot := ⟨offset + c.utf8Size, some c, rest.head?⟩
    match settle [] (threads.flatMap (feed spot c)) with
    | [] => best
    | next => run spot.offset next best rest

end Thread

/-- A match of a pattern. -/
structure Match where
  /-- The matched stretch. -/
  span : Span
  /-- The recorded offsets. -/
  marks : Marks

/-- The stretch matched by a group, if the match went through it. -/
def Match.group? (m : Match) (number : Nat) : Option Span :=
  match m.marks.lookup (2 * number), m.marks.lookup (2 * number + 1) with
  | some start, some stop => some ⟨start, stop⟩
  | _, _ => none

namespace Pattern

/-- The preferred match that starts at the place before `text`, which stands at `offset` after the
character `before`. -/
def matchAt? (p : Pattern) (before : Option Char) (offset : Nat) (text : Text) : Option Match :=
  let spot : Spot := ⟨offset, before, text.head?⟩
  let start := Thread.settle [] (threadsOf spot [p] [])
  (Thread.run offset start none text).map fun (stop, marks) => ⟨⟨offset, stop⟩, marks⟩

/-- The preferred match at the start of a text. -/
def matchStart? (p : Pattern) (text : Text) : Option Match :=
  p.matchAt? none 0 text

/-- The matches that start at `skip` or later, where `text` stands at `offset` after `before`. -/
def findAllFrom (p : Pattern) (skip : Nat) (before : Option Char) (offset : Nat) :
    Text → List Match
  | [] => if offset < skip then [] else (p.matchAt? before offset []).toList
  | c :: rest =>
    let next := offset + c.utf8Size
    if offset < skip then findAllFrom p skip (some c) next rest
    else
      match p.matchAt? before offset (c :: rest) with
      | some m => m :: findAllFrom p m.span.stop (some c) next rest
      | none => findAllFrom p skip (some c) next rest

/-- The matches of a text from left to right, each starting as early as possible at the end of the one
before or after it. -/
def findAll (p : Pattern) (text : Text) : List Match :=
  p.findAllFrom 0 none 0 text

end Pattern

end CodeAtlas
