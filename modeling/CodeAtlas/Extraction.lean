import CodeAtlas.Extraction.Braces
import CodeAtlas.Extraction.CFamily
import CodeAtlas.Extraction.Python

/-!
# Extraction

What the rules of a family, or those of its own language, read off a source.
-/

namespace CodeAtlas

namespace Extraction

/-- What the rules of a family find in a source. -/
def findings? (family : RuleFamily) (source : Source) : Option (List Finding) :=
  match family with
  | .cFamily => CFamily.findings? source
  | .python => Python.findings? source
  | .generic => Braces.findings? source

/-- The includes that the rules of a family read off a source. -/
def includes? (family : RuleFamily) (source : Source) : Option (List Text) :=
  match family with
  | .cFamily => CFamily.includes? source
  | .python => Python.includes? source
  | .generic => Braces.includes? source

/-- What the rules of a family read off a source; none if a rule cuts a text where it cannot
be cut. -/
def ofFamily? (family : RuleFamily) (source : Source) : Option Extraction := do
  let findings ← findings? family source
  let includes ← includes? family source
  ofFindings? source findings (includes.map String.ofList)

/-- What the rules of its language read off a source; none if a rule cuts a text where it cannot
be cut. -/
def ofSource? (source : Source) : Option Extraction :=
  ofFamily? source.language.family source

/-- What the rules of its language read off a source. -/
def ofSource (source : Source) : Extraction :=
  (ofSource? source).getD {}

end Extraction

end CodeAtlas
