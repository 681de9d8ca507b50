import CodeAtlas.Query.Locate

/-!
# Class outlines

Every struct or class with the functions that start inside of it and in no class further in.
-/

namespace CodeAtlas

/-- A class with its methods. -/
structure ClassOutline where
  self : SymbolId
  methods : List SymbolId
  /-- The innermost class around it. -/
  outer : Option SymbolId
deriving DecidableEq, Repr

/-- The outlines of the classes that a keyword finds. -/
structure ClassesResult where
  keyword : String
  classes : List ClassOutline
  status : QueryStatus
deriving Repr

/-- Whether a symbol starts inside another, after its first line. -/
def Symbol.startsInside (s outer : Symbol) : Bool :=
  outer.startLine < s.startLine && s.startLine ≤ outer.endLine

/-- Of two symbols, the one that starts later; the second if they start on one line. -/
def laterStart (best : Option Symbol) (s : Symbol) : Option Symbol :=
  match best with
  | none => some s
  | some b => if b.startLine ≤ s.startLine then some s else some b

/-- The class around a symbol that starts last. -/
def innermost? (classes : List Symbol) (s : Symbol) : Option Symbol :=
  (classes.filter fun c => c.id != s.id && s.startsInside c).foldl laterStart none

namespace CallGraph

/-- The outlines of the classes of a file whose name contains the needle. -/
def fileOutlines (g : CallGraph) (needle : Text) (file : String) : List ClassOutline :=
  let symbols := g.table.symbolsIn file
  let classes := symbols.filter (·.kind == .structOrClass)
  (classes.filter fun c => holdsNeedle needle c.name.toList).map fun c =>
    { self := c.id
      methods :=
        (symbols.filter fun s =>
          s.kind == .function && (innermost? classes s).any (·.id == c.id)).map Symbol.id
      outer := (innermost? classes c).map Symbol.id }

/-- The outlines of the classes whose name contains a keyword, file by file. -/
def classOutline (g : CallGraph) (keyword : String) : ClassesResult :=
  let classes := g.table.files.flatMap (g.fileOutlines (needle keyword))
  ⟨keyword, classes, if classes.isEmpty then .noMatches keyword else .found⟩

end CallGraph

/-- The line that the log shows for the outlines. -/
def ClassesResult.summary (r : ClassesResult) : String :=
  s!"class outline '{r.keyword}': {r.classes.length} classes"

end CodeAtlas
