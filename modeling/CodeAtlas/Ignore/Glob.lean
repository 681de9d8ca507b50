import CodeAtlas.Sequence
import CodeAtlas.Text.Basic

/-!
# Globs

A glob is a pattern for paths. It is matched against the bytes of a path, and must take all of them. A
star and a question mark take no slash; two stars between slashes take any number of directories.

* `GlobToken`: a part of a glob.
* `Glob.rests`: what is left of a path after a glob has taken a part of it, in all ways.
* `Glob.accepts`: whether a glob takes a whole path.
-/

namespace CodeAtlas

/-- A part of a glob. -/
inductive GlobToken where
  /-- The character itself. -/
  | literal (c : Char)
  /-- A byte other than a slash. -/
  | any
  /-- Bytes other than slashes, as many as one likes. -/
  | star
  /-- In front of a glob: nothing, or all up to a slash. -/
  | leadingDirs
  /-- Between two parts: a slash, or all from a slash to a slash. -/
  | innerDirs
  /-- At the end of a glob: a slash and all that follows. -/
  | trailingDirs
  /-- A byte of some ranges of characters, or of none of them. -/
  | oneOf (negated : Bool) (ranges : List (Char × Char))
  /-- One of several globs. -/
  | alternates (branches : List (List GlobToken))
deriving Repr, Inhabited

/-- A glob is the list of its parts. -/
abbrev Glob := List GlobToken

namespace Glob

/-- The byte of a slash. -/
def slash : UInt8 := 47

/-- The byte ranges that a range of characters stands for: between the last byte of the lower end and the
first of the upper end, with the other bytes of the two ends. -/
def byteRanges (range : Char × Char) : List (UInt8 × UInt8) :=
  let low := String.utf8EncodeChar range.1
  let single := fun (b : UInt8) => (b, b)
  if range.1 == range.2 then low.map single
  else
    let high := String.utf8EncodeChar range.2
    low.dropLast.map single ++ (low.getLastD 0, high.headD 0) :: high.tail.map single

/-- Whether a byte is in one of some ranges of characters. -/
def inClass (ranges : List (Char × Char)) (b : UInt8) : Bool :=
  (ranges.flatMap byteRanges).any fun (low, high) => low ≤ b && b ≤ high

/-- What follows one byte of a kind. -/
def afterByte (p : UInt8 → Bool) : List UInt8 → List (List UInt8)
  | [] => []
  | b :: rest => if p b then [rest] else []

/-- What follows any number of bytes of a kind. -/
def afterBytes (p : UInt8 → Bool) : List UInt8 → List (List UInt8)
  | [] => [[]]
  | b :: rest => (b :: rest) :: if p b then afterBytes p rest else []

/-- What follows each slash. -/
def afterSlashes : List UInt8 → List (List UInt8)
  | [] => []
  | b :: rest => if b == slash then rest :: afterSlashes rest else afterSlashes rest

/-- What follows the given bytes. -/
def afterLiteral : List UInt8 → List UInt8 → List (List UInt8)
  | [], path => [path]
  | _ :: _, [] => []
  | a :: literal, b :: rest => if a == b then afterLiteral literal rest else []

mutual

/-- Whether a part takes nothing in every case: alternatives that are all void. -/
def isVoidToken : GlobToken → Bool
  | .alternates branches => areVoid branches
  | _ => false

/-- Whether all parts of a glob are void. -/
def isVoid : List GlobToken → Bool
  | [] => true
  | token :: rest => isVoidToken token && isVoid rest

/-- Whether some globs are all void. -/
def areVoid : List (List GlobToken) → Bool
  | [] => true
  | branch :: rest => isVoid branch && areVoid rest

end

mutual

/-- What a part leaves of a path. A void alternative counts only if there is no other. -/
def restsOfToken (path : List UInt8) : GlobToken → List (List UInt8)
  | .literal c => afterLiteral (String.utf8EncodeChar c) path
  | .any => afterByte (· != slash) path
  | .star => afterBytes (· != slash) path
  | .leadingDirs => path :: afterSlashes path
  | .innerDirs =>
    (afterByte (· == slash) path).flatMap fun rest => rest :: afterSlashes rest
  | .trailingDirs => (afterByte (· == slash) path).flatMap (afterBytes fun _ => true)
  | .oneOf negated ranges => afterByte (fun b => inClass ranges b != negated) path
  | .alternates branches => if areVoid branches then [path] else restsOfBranches path branches

/-- What the parts of a glob, one after the other, leave of some paths. -/
def rests (paths : List (List UInt8)) : List GlobToken → List (List UInt8)
  | [] => paths
  | token :: others => rests (paths.flatMap fun path => restsOfToken path token).eraseDups others

/-- What one of several globs leaves of a path. -/
def restsOfBranches (path : List UInt8) : List (List GlobToken) → List (List UInt8)
  | [] => []
  | branch :: others =>
    (if isVoid branch then [] else rests [path] branch) ++ restsOfBranches path others

end

/-- Whether a glob takes a whole path. Two stars alone take every path. -/
def accepts (glob : Glob) (path : List UInt8) : Bool :=
  match glob with
  | [.leadingDirs] => true
  | glob => (rests [path] glob).contains []

end Glob

end CodeAtlas
