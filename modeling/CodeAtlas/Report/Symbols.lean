import CodeAtlas.Extraction
import CodeAtlas.Json

/-!
# Reports of symbols

How symbols, identities, call edges and extractions are written as JSON.
-/

namespace CodeAtlas

/-- A kind, by its name. -/
def SymbolKind.toJson (kind : SymbolKind) : Json := .str kind.code

/-- A language, by its name. -/
def Language.toJson (language : Language) : Json := .str language.code

/-- A family of rules, by its name. -/
def RuleFamily.toJson (family : RuleFamily) : Json := .str family.code

/-- An identity, by its three parts. -/
def SymbolId.toJson (id : SymbolId) : Json :=
  .obj [("name", .str id.name), ("file", .str id.file), ("start_line", .nat id.startLine)]

/-- The fields of a symbol that reports show. -/
def Symbol.fields (s : Symbol) : List (String × Json) :=
  [("name", .str s.name), ("kind", s.kind.toJson), ("file", .str s.file),
    ("start_line", .nat s.startLine), ("end_line", .nat s.endLine), ("signature", .str s.signature)]

/-- A symbol without its body. -/
def Symbol.toJson (s : Symbol) : Json := .obj s.fields

/-- A symbol with its body. -/
def Symbol.toFullJson (s : Symbol) : Json := .obj (s.fields ++ [("body", .str s.body)])

/-- A call edge. -/
def CallEdge.toJson (edge : CallEdge) : Json :=
  .obj [("caller", edge.caller.toJson), ("callee", .str edge.callee), ("lines", .list .nat edge.lines)]

/-- An extraction, its symbols with their bodies. -/
def Extraction.toJson (e : Extraction) : Json :=
  .obj [("symbols", .list Symbol.toFullJson e.symbols), ("includes", .strings e.includes),
    ("unterminated", .nat e.unterminated)]

end CodeAtlas
