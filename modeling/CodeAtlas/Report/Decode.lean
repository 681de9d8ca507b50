import CodeAtlas.Config
import CodeAtlas.Json
import CodeAtlas.Limits
import CodeAtlas.Language
import CodeAtlas.Symbol

/-!
# Reading JSON

How values of the data format are read back. A record is an object that has all fields, whatever else it
has, or the list of exactly the fields in order. A number is read only if it is written as an integer in
range.
-/

namespace CodeAtlas

namespace Json

/-- The string of a value. -/
def string? : Json → Option String
  | .str s => some s
  | _ => none

/-- The truth value of a value. -/
def bool? : Json → Option Bool
  | .bool b => some b
  | _ => none

/-- The natural number of a value, if it is below a bound. -/
def natBelow? (bound : Nat) : Json → Option Nat
  | .int (.ofNat n) => if n < bound then some n else none
  | _ => none

/-- The strings of a list. -/
def strings? : Json → Option (List String)
  | .arr items => items.mapM string?
  | _ => none

/-- The values of the fields of a record, in the order of their names. -/
def record? (names : List String) : Json → Option (List Json)
  | .arr items => if items.length == names.length then some items else none
  | .obj fields => names.mapM fun name => field? name (.obj fields)
  | _ => none

/-- The word of a choice: a string, or an object whose only field is the word and holds nothing. -/
def choice? : Json → Option String
  | .str word => some word
  | .obj [(word, .null)] => some word
  | _ => none

end Json

/-- The kind that a value names. -/
def SymbolKind.ofJson? (value : Json) : Option SymbolKind :=
  value.choice?.bind SymbolKind.ofCode?

/-- The language that a value names. -/
def Language.ofJson? (value : Json) : Option Language :=
  value.choice?.bind Language.ofCode?

/-- The family of rules that a value names. -/
def RuleFamily.ofJson? (value : Json) : Option RuleFamily :=
  value.choice?.bind RuleFamily.ofCode?

/-- The identity that a value holds; lines are numbers of 32 bits. -/
def SymbolId.ofJson? (value : Json) : Option SymbolId := do
  match ← value.record? ["name", "file", "start_line"] with
  | [name, file, line] => return ⟨← name.string?, ← file.string?, ← line.natBelow? UInt32.size⟩
  | _ => none

/-- The configuration that a value holds. -/
def Config.ofJson? (value : Json) : Option Config := do
  match ← value.record? ["extensions", "ignore_patterns", "respect_gitignore"] with
  | [extensions, patterns, respect] =>
    return ⟨← extensions.strings?, ← patterns.strings?, ← respect.bool?⟩
  | _ => none

/-- The limits that a value holds; limits are numbers of 64 bits. -/
def Limits.ofJson? (value : Json) : Option Limits := do
  let fields ← value.record?
    ["default_depth", "max_depth", "max_hops", "concept_depth", "max_paths", "max_expansions",
      "max_tree_nodes", "snippet_length"]
  match ← fields.mapM (Json.natBelow? UInt64.size) with
  | [defaultDepth, maxDepth, maxHops, conceptDepth, maxPaths, maxExpansions, maxTreeNodes,
      snippetLength] =>
    return ⟨defaultDepth, maxDepth, maxHops, conceptDepth, maxPaths, maxExpansions, maxTreeNodes,
      snippetLength⟩
  | _ => none

end CodeAtlas
