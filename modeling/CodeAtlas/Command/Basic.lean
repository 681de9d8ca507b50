import CodeAtlas.Diagram.Basic
import CodeAtlas.Symbol

/-!
# Commands

What the command line can ask for. Every command scans a repository first.
-/

namespace CodeAtlas

/-- The repository that a command is about. -/
structure RepoArgs where
  path : String
  /-- The extensions to take in place of the configured ones, if there are any. -/
  extensions : List String := []
  /-- Whether the answer is written as JSON. -/
  json : Bool := false
deriving DecidableEq, Repr

/-- What to do with the index of the repository. -/
inductive Command where
  | scan
  | locate (keyword : String) (kind : Option SymbolKind)
  | tree (symbol : String) (depth : Option Nat) (direction : Direction) (sequence : Bool)
  | path (source target : String) (maxHops : Nat) (direction : Direction)
  | concept (label : String) (keywords : List String) (direction : Direction)
  | code (symbol : String)
  | complexity (symbol : String)
  | classes (keyword : Option String)
  | deps (includes : Bool) (direction : Direction)
deriving DecidableEq, Repr

/-- A command with its repository. -/
structure Invocation where
  /-- Whether the log is to show more. -/
  verbose : Bool
  repo : RepoArgs
  command : Command
deriving DecidableEq, Repr

/-- What is wrong with a command line, or what it asks for in place of a command. -/
inductive UsageError where
  | unknownArgument
  | missingArgument
  /-- A value that its option does not take. -/
  | badValue
  /-- An option without its value, or an empty path. -/
  | missingValue
  | unknownCommand
  | missingCommand
  /-- An option for one use that is repeated. -/
  | repeatedOption
  /-- A value for an option that takes none. -/
  | surplusValue
  | helpRequested
  | versionRequested
  /-- There are no arguments at all. -/
  | noArguments
deriving DecidableEq, Repr

/-- The text of an error. -/
def UsageError.message : UsageError → String
  | unknownArgument => "unexpected argument"
  | missingArgument => "a required argument is missing"
  | badValue => "invalid value"
  | missingValue => "a value is required"
  | unknownCommand => "unrecognized command"
  | missingCommand => "a command is required"
  | repeatedOption => "an option is given more than once"
  | surplusValue => "unexpected value for an option"
  | helpRequested => "usage: scan | locate | tree | path | concept | code | complexity | classes | deps"
  | versionRequested => "0.1.0"
  | noArguments => "usage: scan | locate | tree | path | concept | code | complexity | classes | deps"

end CodeAtlas
