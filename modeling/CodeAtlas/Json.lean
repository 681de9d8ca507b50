/-!
# JSON values

Values of the data format in which reports are written. Objects keep the order of their fields.

* `Json.pretty`: the text of a value on several lines, indented by two spaces, with empty containers on
  one line.
* `Json.quote`: a string with its quotes; control characters are escaped and all others stand for
  themselves.
-/

namespace CodeAtlas

/-- A value of the data format. -/
inductive Json where
  | null
  | bool (b : Bool)
  /-- A number written without a fraction or an exponent. -/
  | int (n : Int)
  /-- A number written with a fraction or an exponent, or as a negative zero. -/
  | real (text : String)
  | str (s : String)
  | arr (items : List Json)
  | obj (fields : List (String × Json))
deriving Repr, Inhabited

namespace Json

/-- A natural number. -/
def nat (n : Nat) : Json := .int n

/-- A value that may be missing, written as null if it is. -/
def option {α : Type} (encode : α → Json) : Option α → Json
  | none => .null
  | some a => encode a

/-- A list of values. -/
def list {α : Type} (encode : α → Json) (items : List α) : Json :=
  .arr (items.map encode)

/-- A list of strings. -/
def strings (items : List String) : Json :=
  list .str items

/-- The value of a field, the last one if the field is repeated. -/
def field? (name : String) : Json → Option Json
  | .obj fields => fields.reverse.lookup name
  | _ => none

/-- The small hexadecimal digit of a number below sixteen. -/
def hexDigit (n : Nat) : Char :=
  if n < 10 then Char.ofNat (48 + n) else Char.ofNat (87 + n)

/-- How a character stands inside quotes. -/
def escape (c : Char) : List Char :=
  if c == '"' then ['\\', '"']
  else if c == '\\' then ['\\', '\\']
  else if c == '\n' then ['\\', 'n']
  else if c == '\t' then ['\\', 't']
  else if c == '\r' then ['\\', 'r']
  else if c == '\x08' then ['\\', 'b']
  else if c == '\x0c' then ['\\', 'f']
  else if c.toNat < 32 then
    ['\\', 'u', '0', '0', hexDigit (c.toNat / 16), hexDigit (c.toNat % 16)]
  else [c]

/-- A string in quotes. -/
def quote (s : String) : String :=
  String.ofList ('"' :: s.toList.flatMap escape ++ ['"'])

/-- A line feed and the indentation of a depth. -/
def newLine (depth : Nat) : String :=
  String.ofList ('\n' :: List.replicate (2 * depth) ' ')

mutual

/-- The text of a value that stands at a depth. -/
def prettyAt (depth : Nat) : Json → String
  | .null => "null"
  | .bool true => "true"
  | .bool false => "false"
  | .int n => toString n
  | .real text => text
  | .str s => quote s
  | .arr [] => "[]"
  | .arr (item :: items) =>
    "[" ++ newLine (depth + 1) ++ prettyAt (depth + 1) item ++ prettyItems (depth + 1) items ++
      newLine depth ++ "]"
  | .obj [] => "\x7b\x7d"
  | .obj ((name, value) :: fields) =>
    "\x7b" ++ newLine (depth + 1) ++ quote name ++ ": " ++ prettyAt (depth + 1) value ++
      prettyFields (depth + 1) fields ++ newLine depth ++ "\x7d"

/-- The texts of the items after the first, each on a line of its own. -/
def prettyItems (depth : Nat) : List Json → String
  | [] => ""
  | item :: items => "," ++ newLine depth ++ prettyAt depth item ++ prettyItems depth items

/-- The texts of the fields after the first, each on a line of its own. -/
def prettyFields (depth : Nat) : List (String × Json) → String
  | [] => ""
  | (name, value) :: fields =>
    "," ++ newLine depth ++ quote name ++ ": " ++ prettyAt depth value ++ prettyFields depth fields

end

/-- The text of a value on several lines. -/
def pretty (value : Json) : String :=
  prettyAt 0 value

end Json

end CodeAtlas
