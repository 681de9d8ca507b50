/-!
# The log

What the program tells about its work, apart from its answers.
-/

namespace CodeAtlas

/-- How much a line of the log matters. -/
inductive LogLevel where
  | info
  | warn
deriving DecidableEq, Repr

/-- The name of a level. -/
def LogLevel.code : LogLevel → String
  | info => "INFO"
  | warn => "WARN"

/-- A line of the log. -/
structure LogLine where
  level : LogLevel
  text : String
deriving DecidableEq, Repr

namespace LogLine

/-- A line that informs. -/
def info (text : String) : LogLine := ⟨.info, text⟩

/-- A line that warns. -/
def warn (text : String) : LogLine := ⟨.warn, text⟩

/-- A line with its level in front. -/
def display (line : LogLine) : String :=
  s!"{line.level.code} {line.text}"

end LogLine

end CodeAtlas
