import CodeAtlas.Ignore.GlobExpression
import CodeAtlas.Ignore.GlobText
import CodeAtlas.Text.Blank

/-!
# Ignore rules

A line of an ignore file is a rule: a glob that leaves paths out, or keeps them if an exclamation mark
stands in front. A glob with a slash inside or in front counts from the directory of the file; any other
may start below any directory. A slash at the end restricts the rule to directories.

* `IgnoreRule.ofLine`: the rule of a line, if it is one.
* `IgnoreRule.verdict?`: what some rules say about a path; the last one that fits decides.
* `IgnoreFile.ofBytes`: the rules of a file, with the faults of its lines.
-/

namespace CodeAtlas

/-- What rules say about a path. -/
inductive Verdict where
  | leftOut
  | kept
deriving DecidableEq, Repr

/-- A rule of an ignore file. -/
structure IgnoreRule where
  glob : Glob
  verdict : Verdict
  /-- Whether the rule is about directories only. -/
  onlyDirectories : Bool
deriving Repr

/-- A line whose glob cannot be read. -/
structure RuleError where
  /-- The line, without the blanks at its end. -/
  line : Text
  cause : GlobError
deriving DecidableEq, Repr

/-- The text of an error. -/
def RuleError.message (e : RuleError) : String :=
  s!"error parsing glob '{String.ofList e.line}': {e.cause.message}"

namespace IgnoreRule

/-- A line without the blanks at its end, unless the last one is a space with a backslash before it. -/
def trimLine (line : Text) : Text :=
  if ['\\', ' '].isSuffixOf line then line else Text.trimEndWhile Text.isBlank line

/-- A line without its marks in front: the verdict, whether it counts from the directory of the file, and
the rest of the line. A backslash in front of an exclamation mark or a number sign takes their meaning. -/
def leadingMarks (line : Text) : Verdict × Bool × Text :=
  match line with
  | '\\' :: '!' :: rest => (.leftOut, false, '!' :: rest)
  | '\\' :: '#' :: rest => (.leftOut, false, '#' :: rest)
  | '!' :: '/' :: rest => (.kept, true, rest)
  | '!' :: rest => (.kept, false, rest)
  | '/' :: rest => (.leftOut, true, rest)
  | rest => (.leftOut, false, rest)

/-- A line without a slash at its end and a backslash before that, and whether there was a slash. -/
def trailingSlash (line : Text) : Bool × Text :=
  match line.reverse with
  | '/' :: '\\' :: rest => (true, rest.reverse)
  | '/' :: rest => (true, rest.reverse)
  | _ => (false, line)

/-- The text of the glob of a line. A line without a slash inside fits below any directory, and one that
ends with two stars fits what is inside a directory, but not the directory. -/
def globText (anchored : Bool) (line : Text) : Text :=
  let doubleStar : Text := ['*', '*']
  let floating :=
    !anchored && !line.contains '/' && !(doubleStar ++ ['/']).isPrefixOf line && line != doubleStar
  let text := if floating then doubleStar ++ '/' :: line else line
  if ('/' :: doubleStar).isSuffixOf text then text ++ ['/', '*'] else text

/-- The rule of a line; none if the line is a comment or blank. -/
def ofLine (lenient : Bool) (line : Text) : Except RuleError (Option IgnoreRule) :=
  if line.head? == some '#' then .ok none
  else
    let line := trimLine line
    if line.isEmpty then .ok none
    else
      let (verdict, anchored, body) := leadingMarks line
      let (onlyDirectories, body) := trailingSlash body
      match Glob.parse lenient (globText anchored body) with
      | .ok glob => .ok (some ⟨glob, verdict, onlyDirectories⟩)
      | .error cause => .error ⟨line, cause⟩

/-- Whether a rule is about a path. -/
def fits (rule : IgnoreRule) (isDirectory : Bool) (path : List UInt8) : Bool :=
  (isDirectory || !rule.onlyDirectories) && rule.glob.accepts path

/-- What some rules say about a path: the verdict of the last one that fits. -/
def verdict? (rules : List IgnoreRule) (isDirectory : Bool) (path : List UInt8) : Option Verdict :=
  (rules.reverse.find? (·.fits isDirectory path)).map IgnoreRule.verdict

/-- Why some rules cannot be used together, if they cannot. -/
def setError? (rules : List IgnoreRule) : Option Glob.SetError :=
  Glob.setError? (rules.map IgnoreRule.glob)

end IgnoreRule

/-- What is wrong in an ignore file. -/
structure IgnoreFault where
  /-- The path of the file, unless the fault is in its rules as a whole. -/
  path : Option String
  /-- The number of the line, if the fault is in one. -/
  line : Option Nat := none
  reason : String
deriving DecidableEq, Repr

/-- The text of a fault. -/
def IgnoreFault.message (f : IgnoreFault) : String :=
  match f.path, f.line with
  | some path, some line => s!"{path}: line {line}: {f.reason}"
  | some path, none => s!"{path}: {f.reason}"
  | none, _ => f.reason

/-- The rules of an ignore file, with what is wrong in it. -/
structure IgnoreFile where
  rules : List IgnoreRule := []
  faults : List IgnoreFault := []

namespace IgnoreFile

/-- The reason of the fault of a line that is not UTF-8. -/
def undecodable : String := "stream did not contain valid UTF-8"

/-- The pieces of some bytes between line feeds; each but the last ends with one. -/
def splitLines : List UInt8 → List (List UInt8)
  | [] => [[]]
  | b :: rest =>
    match splitLines rest with
    | [] => [[b]]
    | first :: others => if b == 10 then [] :: first :: others else (b :: first) :: others

/-- The bytes of the lines of a file, without line ends. -/
def byteLines (bytes : List UInt8) : List (List UInt8) :=
  let pieces := splitLines bytes
  let ended := pieces.dropLast.map fun line => if line.getLast? == some 13 then line.dropLast else line
  let last := pieces.getLastD []
  if last.isEmpty then ended else ended ++ [last]

/-- Reads the lines of a file from a line number on, up to the first that is not UTF-8. `path` is the path
of the file, as the faults show it. -/
def readLines (path : String) (number : Nat) : List (List UInt8) → IgnoreFile
  | [] => {}
  | bytes :: rest =>
    match String.fromUTF8? ⟨bytes.toArray⟩ with
    | none => { faults := [⟨some path, some number, undecodable⟩] }
    | some line =>
      let line := line.toList
      let line := if number == 1 then line.dropWhile (· == '\ufeff') else line
      let others := readLines path (number + 1) rest
      match IgnoreRule.ofLine true line with
      | .ok none => others
      | .ok (some rule) => { others with rules := rule :: others.rules }
      | .error e => { others with faults := ⟨some path, some number, e.message⟩ :: others.faults }

/-- Whether all lines of a file are UTF-8. -/
def isReadable (bytes : List UInt8) : Bool :=
  (byteLines bytes).all fun line => (String.fromUTF8? ⟨line.toArray⟩).isSome

/-- The lines of a file. That one of them cannot be decoded is no fault unless there are others. -/
def readBytes (path : String) (bytes : List UInt8) : IgnoreFile :=
  let read := readLines path 1 (byteLines bytes)
  if read.faults.length == 1 && !isReadable bytes then { read with faults := [] } else read

/-- A file without its rules if they cannot be used together, which is one more fault. -/
def settle (file : IgnoreFile) : IgnoreFile :=
  match IgnoreRule.setError? file.rules with
  | none => file
  | some e => { rules := [], faults := file.faults ++ [⟨none, none, e.message⟩] }

/-- The rules of a file. -/
def ofBytes (path : String) (bytes : List UInt8) : IgnoreFile :=
  (readBytes path bytes).settle

end IgnoreFile

end CodeAtlas
