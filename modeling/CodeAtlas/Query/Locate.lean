import CodeAtlas.CallGraph
import CodeAtlas.Query.Status

/-!
# Looking up names

The symbols whose name contains a keyword, whatever the case.
-/

namespace CodeAtlas

/-- The symbols that a keyword finds. -/
structure LocateResult where
  keyword : String
  hits : List Symbol
  status : QueryStatus
deriving Repr

/-- A keyword as it is compared: without blanks around it, in small letters. -/
def needle (keyword : String) : Text :=
  Text.lowercase (Text.trim keyword.toList)

/-- Whether the small form of a text contains a needle. -/
def holdsNeedle (needle : Text) (text : Text) : Bool :=
  Text.occursIn needle (Text.lowercase text)

namespace CallGraph

/-- The symbols, of one kind if one is given, whose name contains a keyword. A blank keyword finds
none. -/
def locate (g : CallGraph) (keyword : String) (kind : Option SymbolKind) : LocateResult :=
  let needle := needle keyword
  let hits :=
    if needle.isEmpty then []
    else
      g.table.symbols.filter fun s =>
        (kind.isNone || kind == some s.kind) && holdsNeedle needle s.name.toList
  ⟨keyword, hits, if hits.isEmpty then .noMatches keyword else .found⟩

end CallGraph

/-- The line that the log shows for the lookup. -/
def LocateResult.summary (r : LocateResult) : String :=
  s!"locate '{r.keyword}': {r.hits.length} matches"

end CodeAtlas
