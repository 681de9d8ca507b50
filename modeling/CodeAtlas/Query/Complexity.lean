import CodeAtlas.CallGraph

/-!
# Complexity

A rough score of a symbol's code, from its branches and its length. It is read off the words of the code,
not off its structure.

* `lexemes`: the words of a text and the characters between them.
* `branchPoints`: the number of branching words and operators.
* `callSites`: the number of names that an opening parenthesis follows.
* `ComplexityReport.ofCode`: the report on some code.
-/

namespace CodeAtlas

/-- A maximal run of word characters, or a character between such runs. -/
inductive Lexeme where
  | word (w : Text)
  | other (c : Char)
deriving DecidableEq, Repr

/-- The lexemes of a text; `begun` is the word that was begun before it, empty if none was. -/
def lexemesFrom (begun : Text) : Text → List Lexeme
  | [] => if begun.isEmpty then [] else [.word begun]
  | c :: rest =>
    if Text.isWord c then lexemesFrom (begun ++ [c]) rest
    else if begun.isEmpty then .other c :: lexemesFrom [] rest
    else .word begun :: .other c :: lexemesFrom [] rest

/-- The words of a text and the characters between them. -/
def lexemes (text : Text) : List Lexeme :=
  lexemesFrom [] text

/-- The words at which the flow of control branches. -/
def branchWords : List String :=
  ["if", "elif", "for", "while", "case", "catch", "except", "and", "or"]

/-- The number of branching words and of doubled ampersands and bars. -/
def branchPoints : List Lexeme → Nat
  | [] => 0
  | .word w :: rest => (if branchWords.contains (String.ofList w) then 1 else 0) + branchPoints rest
  | .other '&' :: .other '&' :: rest => 1 + branchPoints rest
  | .other '|' :: .other '|' :: rest => 1 + branchPoints rest
  | .other _ :: rest => branchPoints rest

/-- The words that may stand before a parenthesis without being called. -/
def uncalledWords : List String :=
  ["if", "elif", "for", "while", "switch", "catch", "return", "sizeof", "typeof", "except", "with",
    "and", "or", "not", "in"]

/-- Whether the first lexeme that is not blank is an opening parenthesis. -/
def parenFollows : List Lexeme → Bool
  | .other c :: rest => if Text.isBlank c then parenFollows rest else c == '('
  | _ => false

/-- Whether a word can be the name of something called. -/
def isCallable (w : Text) : Bool :=
  w.head?.any Text.isAsciiStart && !uncalledWords.contains (String.ofList w)

/-- The number of names that an opening parenthesis follows, possibly after blanks. -/
def callSites : List Lexeme → Nat
  | [] => 0
  | .word w :: rest => (if isCallable w && parenFollows rest then 1 else 0) + callSites rest
  | .other _ :: rest => callSites rest

/-- How complex a score is. -/
inductive ComplexityLevel where
  | low
  | moderate
  | high
  | veryHigh
deriving DecidableEq, Repr

namespace ComplexityLevel

/-- The level of a score. -/
def ofScore (score : Nat) : ComplexityLevel :=
  if score ≤ 5 then low else if score ≤ 10 then moderate else if score ≤ 20 then high else veryHigh

/-- The name of a level in reports. -/
def code : ComplexityLevel → String
  | low => "low"
  | moderate => "moderate"
  | high => "high"
  | veryHigh => "very_high"

/-- The name of a level for a reader. -/
def display : ComplexityLevel → String
  | veryHigh => "very high"
  | level => level.code

end ComplexityLevel

/-- The complexity of a symbol. -/
structure ComplexityReport where
  symbol : SymbolId
  totalLines : Nat
  /-- The number of lines that are not blank. -/
  codeLines : Nat
  branchPoints : Nat
  callSites : Nat
  cyclomatic : Nat
  score : Nat
  level : ComplexityLevel
deriving DecidableEq, Repr

/-- The report on the code of a symbol. -/
def ComplexityReport.ofCode (symbol : SymbolId) (code : Text) : ComplexityReport :=
  let lines := Text.lines code
  let codeLines := lines.countP fun line => !(Text.trim line).isEmpty
  let tokens := lexemes code
  let branches := CodeAtlas.branchPoints tokens
  let cyclomatic := 1 + branches
  let score := cyclomatic + codeLines / 20
  { symbol := symbol
    totalLines := max lines.length 1
    codeLines := codeLines
    branchPoints := branches
    callSites := CodeAtlas.callSites tokens
    cyclomatic := cyclomatic
    score := score
    level := .ofScore score }

/-- The complexity of the symbol with an identity. -/
def CallGraph.complexity? (g : CallGraph) (id : SymbolId) : Option ComplexityReport :=
  (g.table.get? id).map fun s => .ofCode id (g.table.codeOf s)

end CodeAtlas
