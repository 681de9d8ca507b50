import CodeAtlas.CallGraph
import CodeAtlas.Query.Status

/-!
# The code of a symbol
-/

namespace CodeAtlas

/-- The text of a symbol. -/
structure CodeExtract where
  symbol : SymbolId
  kind : SymbolKind
  startLine : Nat
  endLine : Nat
  code : String
deriving DecidableEq, Repr

/-- The texts of the symbols of a name. -/
structure CodeResult where
  name : String
  extracts : List CodeExtract
  status : QueryStatus
deriving Repr

namespace CallGraph

/-- The text of a symbol's lines. -/
def codeExtract (g : CallGraph) (s : Symbol) : CodeExtract :=
  ⟨s.id, s.kind, s.startLine, s.endLine, String.ofList (g.table.textOf s)⟩

/-- The text of the symbol with an identity. -/
def extractCode? (g : CallGraph) (id : SymbolId) : Option CodeExtract :=
  (g.table.get? id).map g.codeExtract

/-- The texts of all symbols of a name. -/
def extractCodeByName (g : CallGraph) (name : String) : CodeResult :=
  let extracts := (g.table.occurrences name).map g.codeExtract
  ⟨name, extracts, if extracts.isEmpty then .unknownSymbol name else .found⟩

end CallGraph

end CodeAtlas
