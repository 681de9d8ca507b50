/-!
# The status of an answer
-/

namespace CodeAtlas

/-- Whether a query found something, and if not, why. -/
inductive QueryStatus where
  | found
  /-- No symbol has the name. -/
  | unknownSymbol (name : String)
  /-- No chain of calls leads from one name to the other. -/
  | noPath (source target : String)
  /-- Nothing fits the query. -/
  | noMatches (query : String)
deriving DecidableEq, Repr, Inhabited

namespace QueryStatus

/-- Whether something was found. -/
def isFound : QueryStatus → Bool
  | found => true
  | _ => false

/-- The status for a reader. -/
def display : QueryStatus → String
  | found => "found"
  | unknownSymbol name => s!"unknown symbol '{name}'"
  | noPath source target => s!"no call path from '{source}' to '{target}'"
  | noMatches query => s!"no matches for '{query}'"

end QueryStatus

end CodeAtlas
