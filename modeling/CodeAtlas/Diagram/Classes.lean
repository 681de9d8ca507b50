import CodeAtlas.Diagram.Basic
import CodeAtlas.Query.ClassOutline

/-!
# Class diagrams

Classes with their methods, and which class stands inside which.
-/

namespace CodeAtlas

/-- The classes declared so far with their numbers, the latest first. -/
abbrev ClassNumbers := List (SymbolId × Nat)

namespace ClassNumbers

/-- Gives a class the next number, in place of one that it has. -/
def declare (numbers : ClassNumbers) (self : SymbolId) : ClassNumbers :=
  (self, numbers.length + 1) :: numbers.filter (·.1 != self)

end ClassNumbers

/-- The name of a class in a diagram. -/
def className (number : Nat) : String :=
  "c" ++ toString number

/-- The line that declares a class. -/
def classLine (number : Nat) (label : String) : String :=
  "    class " ++ className number ++ "[\"" ++ sanitizeLabel label ++ "\"]"

/-- The lines of a class with the given number. -/
def ClassOutline.lines (outline : ClassOutline) (number : Nat) : List String :=
  classLine number outline.self.display ::
    outline.methods.map fun method =>
      "    " ++ className number ++ " : +" ++ sanitizeLabel method.name ++ "()"

/-- The lines of some classes, and the numbers of all classes declared. -/
def declareClasses (numbers : ClassNumbers) : List ClassOutline → List String × ClassNumbers
  | [] => ([], numbers)
  | outline :: rest =>
    let (lines, final) := declareClasses (numbers.declare outline.self) rest
    (outline.lines (numbers.length + 1) ++ lines, final)

/-- The line that puts a class into the one around it, if both are declared. -/
def ClassOutline.nesting? (outline : ClassOutline) (numbers : ClassNumbers) : Option String := do
  let outer ← outline.outer
  let outerNumber ← numbers.lookup outer
  let number ← numbers.lookup outline.self
  return "    " ++ className outerNumber ++ " *-- " ++ className number

/-- The class diagram of some outlines. -/
def ClassesResult.diagram (r : ClassesResult) : Diagram :=
  if r.classes.isEmpty then
    let note := r.status.display
    ⟨.classes, .topDown, "\n".intercalate ["classDiagram", classLine 1 note], 1, 0, some note⟩
  else
    let (lines, numbers) := declareClasses [] r.classes
    let nestings := r.classes.filterMap (·.nesting? numbers)
    ⟨.classes, .topDown, "\n".intercalate ("classDiagram" :: lines ++ nestings), numbers.length,
      nestings.length, none⟩

end CodeAtlas
