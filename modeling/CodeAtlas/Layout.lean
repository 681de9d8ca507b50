import CodeAtlas.Text.Basic

/-!
# Columns of a table

* `padRight`, `padLeft`: a string in a column of at least the given width.
* `cutEnd`, `cutStart`: a string cut to a width, with dots where something is missing.
-/

namespace CodeAtlas.Layout

/-- A string with spaces after it up to a width. -/
def padRight (width : Nat) (s : String) : String :=
  s ++ String.ofList (List.replicate (width - s.length) ' ')

/-- A string with spaces before it up to a width. -/
def padLeft (width : Nat) (s : String) : String :=
  String.ofList (List.replicate (width - s.length) ' ') ++ s

/-- A string of at most `width` characters, which ends with dots if it was cut. -/
def cutEnd (width : Nat) (s : String) : String :=
  if s.length ≤ width then s else String.ofList (s.toList.take (width - 3)) ++ "..."

/-- A string of at most `width` characters, which starts with dots if it was cut. -/
def cutStart (width : Nat) (s : String) : String :=
  if s.length ≤ width then s else "..." ++ String.ofList (s.toList.drop (s.length - width + 3))

end CodeAtlas.Layout
