import CodeAtlas.Text.Blank
import CodeAtlas.Text.Case
import CodeAtlas.Sequence

/-!
# Configuration of a scan

Which files a scan takes: their extensions, the patterns of names that it leaves out, and whether it
follows the ignore files of a repository.

* `normalizeExtension`: an extension as it is compared, in small letters and without dots in front.
* `Config.ofVariables`: the configuration that the variables of the environment ask for.
* `Config.withExtensions`: the extensions become a list of distinct normal forms.
* `Config.accepts`: whether files with an extension are taken.
-/

namespace CodeAtlas

/-- The normal form of an extension: without blanks around it and dots in front, in small letters. -/
def normalizeExtension (extension : String) : String :=
  String.ofList (Text.lowercase ((Text.trim extension.toList).dropWhile (· == '.')))

/-- The trimmed parts of a value between commas, without the empty ones. -/
def splitList (value : String) : List String :=
  (((Text.segments ',' value.toList).map Text.trim).filter (fun part => !part.isEmpty)).map String.ofList

/-- What a scan takes and what it leaves out. -/
structure Config where
  /-- The extensions of the files to take. -/
  extensions : List String :=
    ["py", "c", "h", "cpp", "hpp", "cc", "java", "js", "ts", "go", "rs"]
  /-- The patterns of the names to leave out. -/
  ignorePatterns : List String :=
    [".git", "__pycache__", "node_modules", ".venv", "venv", "*.pyc", "*.pyo", "*.so", "*.o", "*.a",
      "*.exe", ".DS_Store", "Thumbs.db", ".idea", ".vscode", "dist", "build", "target", "*.egg-info"]
  /-- Whether the ignore files of a repository count. -/
  respectGitignore : Bool := true
deriving DecidableEq, Repr, Inhabited

namespace Config

/-- The configuration with other extensions: their normal forms, each once, without empty ones. -/
def withExtensions (config : Config) (extensions : List String) : Config :=
  { config with
    extensions := ((extensions.map normalizeExtension).filter fun e => !e.isEmpty).eraseDups }

/-- The configuration with more patterns to leave out. -/
def withIgnorePatterns (config : Config) (patterns : List String) : Config :=
  { config with ignorePatterns := config.ignorePatterns ++ patterns }

/-- The configuration that follows the ignore files of a repository, or does not. -/
def withGitignore (config : Config) (respect : Bool) : Config :=
  { config with respectGitignore := respect }

/-- Whether files with an extension are taken. -/
def accepts (config : Config) (extension : String) : Bool :=
  config.extensions.contains (normalizeExtension extension)

end Config

/-- The variables of the environment that a configuration is read from. -/
structure Variables where
  /-- The extensions to take, between commas. -/
  codeExtensions : Option String := none
  /-- More patterns to leave out, between commas. -/
  ignorePatterns : Option String := none
deriving DecidableEq, Repr, Inhabited

namespace Config

/-- The configuration that the variables ask for. A list of extensions without any part does not
count. -/
def ofVariables (env : Variables) : Config :=
  let base : Config := {}
  let config :=
    match env.codeExtensions with
    | none => base
    | some value =>
      let extensions := splitList value
      if extensions.isEmpty then base else base.withExtensions extensions
  match env.ignorePatterns with
  | none => config
  | some value => config.withIgnorePatterns (splitList value)

end Config

end CodeAtlas
