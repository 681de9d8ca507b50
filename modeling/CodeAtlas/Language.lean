import CodeAtlas.Text.Case

/-!
# Languages

The languages a source can be written in, the file extensions that announce them, and the family of
rules that reads each.
-/

namespace CodeAtlas

/-- The rules by which definitions are found in a text. -/
inductive RuleFamily where
  /-- Declarations with a type in front and a block in braces. -/
  | cFamily
  /-- Headers that end in a colon, with an indented block. -/
  | python
  /-- Headers with a keyword or modifiers, with a block in braces. -/
  | generic
deriving DecidableEq, Repr, Inhabited

/-- The language of a source. -/
inductive Language where
  | c
  | cpp
  | python
  | java
  | javaScript
  | typeScript
  | go
  | rust
  /-- Any other language. -/
  | other
deriving DecidableEq, Repr, Inhabited

namespace RuleFamily

/-- All families. -/
def all : List RuleFamily := [.cFamily, .python, .generic]

/-- The name of a family in reports. -/
def code : RuleFamily → String
  | cFamily => "c_family"
  | python => "python"
  | generic => "generic"

/-- The family with a name. -/
def ofCode? (s : String) : Option RuleFamily :=
  all.find? (·.code == s)

end RuleFamily

namespace Language

/-- All languages. -/
def all : List Language :=
  [.c, .cpp, .python, .java, .javaScript, .typeScript, .go, .rust, .other]

/-- The name of a language in reports. -/
def code : Language → String
  | c => "c"
  | cpp => "cpp"
  | python => "python"
  | java => "java"
  | javaScript => "java_script"
  | typeScript => "type_script"
  | go => "go"
  | rust => "rust"
  | other => "other"

/-- The language with a name. -/
def ofCode? (s : String) : Option Language :=
  all.find? (·.code == s)

/-- The name of a language for a reader. -/
def display : Language → String
  | javaScript => "javascript"
  | typeScript => "typescript"
  | language => language.code

/-- The file extensions of a language. -/
def extensions : Language → List String
  | c => ["c"]
  | cpp => ["h", "cpp", "hpp", "cc", "cxx", "hh", "hxx"]
  | python => ["py", "pyi"]
  | java => ["java"]
  | javaScript => ["js", "jsx", "mjs", "cjs"]
  | typeScript => ["ts", "tsx"]
  | go => ["go"]
  | rust => ["rs"]
  | other => []

/-- The rules that read a language. -/
def family : Language → RuleFamily
  | c | cpp => .cFamily
  | python => .python
  | java | javaScript | typeScript | go | rust | other => .generic

/-- The language of a file extension, whatever its case and the dots in front of it. -/
def ofExtension? (extension : String) : Option Language :=
  let plain := String.ofList (Text.lowercase (extension.toList.dropWhile (· == '.')))
  all.find? (·.extensions.contains plain)

end Language

end CodeAtlas
