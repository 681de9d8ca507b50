import CodeAtlas.Command.Basic

/-!
# Reading the command line

Arguments are read from left to right. An option waits for its value, and positional arguments are
gathered, until the next option or positional argument comes; only then is the value looked at. So of two
faults, one that is seen at once, such as an unknown option, comes before a fault in a waiting value.

* `CommandName`: the commands with the options and positional arguments of each.
* `Arguments`: what was read so far.
* `Arguments.settle`: takes the values that wait.
* `parseCommand`: reads the arguments after the name of a command.
* `parseCommandLine`: reads a whole command line.
-/

namespace CodeAtlas

/-- An option that takes a value. -/
inductive ValueOption where
  | ext
  | kind
  | depth
  | direction
  | maxHops
deriving DecidableEq, Repr

/-- An option that takes no value. -/
inductive Flag where
  | json
  | verbose
  | sequence
  | includes
  | help
deriving DecidableEq, Repr

/-- The name of a command. -/
inductive CommandName where
  | scan
  | locate
  | tree
  | path
  | concept
  | code
  | complexity
  | classes
  | deps
deriving DecidableEq, Repr

namespace ValueOption

/-- How an option is written, after two dashes. -/
def word : ValueOption → String
  | ext => "ext"
  | kind => "kind"
  | depth => "depth"
  | direction => "direction"
  | maxHops => "max-hops"

/-- Whether an option may be repeated. -/
def repeats : ValueOption → Bool
  | ext => true
  | _ => false

end ValueOption

namespace Flag

/-- How an option is written, after two dashes. -/
def word : Flag → String
  | json => "json"
  | verbose => "verbose"
  | sequence => "sequence"
  | includes => "includes"
  | help => "help"

/-- The option of a single character after one dash. -/
def ofLetter? (c : Char) : Option Flag :=
  if c == 'v' then some verbose else if c == 'h' then some help else none

end Flag

namespace CommandName

/-- All commands. -/
def all : List CommandName :=
  [scan, locate, tree, path, concept, code, complexity, classes, deps]

/-- How a command is written. -/
def word : CommandName → String
  | scan => "scan"
  | locate => "locate"
  | tree => "tree"
  | path => "path"
  | concept => "concept"
  | code => "code"
  | complexity => "complexity"
  | classes => "classes"
  | deps => "deps"

/-- The command that is written as a word. -/
def ofWord? (s : String) : Option CommandName :=
  all.find? (·.word == s)

/-- The options with a value that a command has. -/
def options : CommandName → List ValueOption
  | locate => [.ext, .kind]
  | tree => [.ext, .depth, .direction]
  | path => [.ext, .maxHops, .direction]
  | concept => [.ext, .direction]
  | deps => [.ext, .direction]
  | _ => [.ext]

/-- The options without a value that a command has. -/
def flags : CommandName → List Flag
  | tree => [.json, .verbose, .help, .sequence]
  | deps => [.json, .verbose, .help, .includes]
  | _ => [.json, .verbose, .help]

/-- The number of positional arguments that a command needs. -/
def required : CommandName → Nat
  | locate => 2
  | tree => 2
  | path => 3
  | concept => 3
  | code => 2
  | complexity => 2
  | _ => 1

/-- The number of positional arguments that a command can tell apart. -/
def positions : CommandName → Nat
  | classes => 2
  | name => name.required

/-- Whether the last positional argument of a command may be repeated. -/
def lastRepeats : CommandName → Bool
  | concept => true
  | _ => false

end CommandName

/-- A number below 2 ^ 64 in decimal digits, possibly after a plus sign. -/
def parseNumber? (s : String) : Option Nat :=
  let digits := if s.toList.head? == some '+' then s.toList.tail else s.toList
  if digits.isEmpty || !digits.all Char.isDigit then none
  else
    let n := digits.foldl (fun n c => n * 10 + (c.toNat - 48)) 0
    if n < UInt64.size then some n else none

/-- Whether an option takes a value. -/
def ValueOption.takes (option : ValueOption) (value : String) : Bool :=
  match option with
  | ext => true
  | kind => (SymbolKind.parse value).isOk
  | direction => (Direction.parse value).isOk
  | depth => (parseNumber? value).isSome
  | maxHops => (parseNumber? value).isSome

/-- What values wait for. -/
inductive Waiting where
  /-- An option, with its value if it is there. -/
  | option (name : ValueOption) (value : Option String)
  /-- The positional argument with a number, with its values. -/
  | positional (number : Nat) (values : List String)
deriving DecidableEq, Repr

/-- What was read of the arguments of a command. -/
structure Arguments where
  options : List (ValueOption × String) := []
  flags : List Flag := []
  positionals : List String := []
  /-- The number of the next positional argument, from zero. -/
  position : Nat := 0
  waiting : Option Waiting := none
deriving DecidableEq, Repr

namespace Arguments

/-- Takes a value of an option. -/
def setOption (a : Arguments) (name : ValueOption) (value : String) : Except UsageError Arguments :=
  if !name.repeats && (a.options.lookup name).isSome then .error .repeatedOption
  else if name.takes value then .ok { a with options := a.options ++ [(name, value)] }
  else .error .badValue

/-- Takes an option without a value. -/
def setFlag (a : Arguments) (flag : Flag) : Except UsageError Arguments :=
  if flag == .help then .error .helpRequested
  else if a.flags.contains flag then .error .repeatedOption
  else .ok { a with flags := a.flags ++ [flag] }

/-- Takes the values that wait. The first positional argument is a path, which is not empty. -/
def settle (a : Arguments) : Except UsageError Arguments :=
  let settled := { a with waiting := none }
  match a.waiting with
  | none => .ok a
  | some (.option _ none) => .error .missingValue
  | some (.option name (some value)) => settled.setOption name value
  | some (.positional number values) =>
    if number == 0 && values.contains "" then .error .missingValue
    else .ok { settled with positionals := settled.positionals ++ values }

/-- Reads an option after two dashes, with the value that is attached to it. -/
def readLong (name : CommandName) (a : Arguments) (word : String) (attached : Option String) :
    Except UsageError Arguments :=
  match name.flags.find? (·.word == word) with
  | some flag =>
    if attached.isSome then .error .surplusValue
    else do (← a.settle).setFlag flag
  | none =>
    match name.options.find? (·.word == word) with
    | some option => do
      let a ← a.settle
      match attached with
      | some value => a.setOption option value
      | none => .ok { a with waiting := some (.option option none) }
    | none => .error .unknownArgument

/-- Reads the options after one dash. -/
def readShort (a : Arguments) : Text → Except UsageError Arguments
  | [] => .ok a
  | c :: rest =>
    match Flag.ofLetter? c with
    | some flag => do
      let a ← a.settle
      let a ← a.setFlag flag
      a.readShort rest
    | none => .error .unknownArgument

/-- Reads a positional argument. -/
def readPositional (name : CommandName) (a : Arguments) (value : String) :
    Except UsageError Arguments :=
  let repeats := name.lastRepeats && a.position + 1 == name.positions
  if name.positions ≤ a.position then .error .unknownArgument
  else
    match repeats, a.waiting with
    | true, some (.positional number values) =>
      if number == a.position then
        .ok { a with waiting := some (.positional number (values ++ [value])) }
      else do
        let a ← a.settle
        return { a with waiting := some (.positional a.position [value]) }
    | _, _ => do
      let a ← a.settle
      return { a with
        waiting := some (.positional a.position [value])
        position := if repeats then a.position else a.position + 1 }

end Arguments

/-- A word after two dashes, cut at the first equals sign. -/
def cutAttached (word : Text) : String × Option String :=
  let name := word.takeWhile (· != '=')
  match word.drop name.length with
  | [] => (String.ofList name, none)
  | _ :: value => (String.ofList name, some (String.ofList value))

/-- Reads the arguments of a command. Once two dashes stand alone, all that follows is positional. -/
def readArguments (name : CommandName) (a : Arguments) (onlyPositional : Bool) :
    List String → Except UsageError Arguments
  | [] => a.settle
  | arg :: rest =>
    if onlyPositional then do
      readArguments name (← a.readPositional name arg) true rest
    else
      match arg.toList with
      | ['-', '-'] => readArguments name a true rest
      | '-' :: '-' :: word => do
        let (word, attached) := cutAttached word
        readArguments name (← a.readLong name word attached) false rest
      | '-' :: c :: letters => do
        readArguments name (← a.readShort (c :: letters)) false rest
      | _ =>
        match a.waiting with
        | some (.option option none) =>
          readArguments name { a with waiting := some (.option option (some arg)) } false rest
        | _ => do readArguments name (← a.readPositional name arg) false rest

namespace Arguments

/-- The value of an option that is given once. -/
def value? (a : Arguments) (name : ValueOption) : Option String :=
  a.options.lookup name

/-- The number that an option gives. -/
def number? (a : Arguments) (name : ValueOption) : Option Nat :=
  (a.value? name).bind parseNumber?

/-- The direction that the options give. -/
def direction (a : Arguments) : Direction :=
  ((a.value? .direction).bind fun s => (Direction.parse s).toOption).getD .topDown

/-- The repository that the arguments name. -/
def repo (a : Arguments) (path : String) : RepoArgs where
  path := path
  extensions :=
    (a.options.filter (·.1 == .ext)).flatMap fun (_, value) =>
      (Text.segments ',' value.toList).map String.ofList
  json := a.flags.contains .json

/-- The greatest number of hops if none is given. -/
def defaultHops : Nat := 5

/-- The command that the arguments make, with its repository; none if arguments are missing. -/
def command? (a : Arguments) (name : CommandName) : Option (RepoArgs × Command) :=
  match name, a.positionals with
  | .scan, [path] => some (a.repo path, .scan)
  | .locate, [path, keyword] =>
    let kind := (a.value? .kind).bind fun s => (SymbolKind.parse s).toOption
    some (a.repo path, .locate keyword kind)
  | .tree, [path, symbol] =>
    some (a.repo path, .tree symbol (a.number? .depth) a.direction (a.flags.contains .sequence))
  | .path, [path, source, target] =>
    some (a.repo path, .path source target ((a.number? .maxHops).getD defaultHops) a.direction)
  | .concept, path :: label :: keyword :: keywords =>
    some (a.repo path, .concept label (keyword :: keywords) a.direction)
  | .code, [path, symbol] => some (a.repo path, .code symbol)
  | .complexity, [path, symbol] => some (a.repo path, .complexity symbol)
  | .classes, [path] => some (a.repo path, .classes none)
  | .classes, [path, keyword] => some (a.repo path, .classes (some keyword))
  | .deps, [path] => some (a.repo path, .deps (a.flags.contains .includes) a.direction)
  | _, _ => none

end Arguments

/-- Reads the arguments after the name of a command. `verbose` says what stood before the name. -/
def parseCommand (verbose : Bool) (name : CommandName) (args : List String) :
    Except UsageError Invocation := do
  let a ← readArguments name {} false args
  match a.command? name with
  | some (repo, command) => return ⟨verbose || a.flags.contains .verbose, repo, command⟩
  | none => .error .missingArgument

/-- What the words after `help` ask for: the help on a command, if they name one. -/
def parseHelp (words : List String) : UsageError :=
  match words with
  | [] => .helpRequested
  | [word] =>
    if word == "help" || (CommandName.ofWord? word).isSome then .helpRequested else .unknownCommand
  | _ => .unknownCommand

/-- Takes an option before the name of a command: the verbose mark, help or the version. -/
def readRootFlag (verbose : Bool) (word : String) : Except UsageError Bool :=
  if word == "help" || word == "h" then .error .helpRequested
  else if word == "version" || word == "V" then .error .versionRequested
  else if word == "verbose" || word == "v" then
    if verbose then .error .repeatedOption else .ok true
  else .error .unknownArgument

/-- Reads the options after one dash before the name of a command. -/
def readRootShort (verbose : Bool) : Text → Except UsageError Bool
  | [] => .ok verbose
  | c :: rest =>
    if c == 'h' || c == 'V' || c == 'v' then do
      readRootShort (← readRootFlag verbose (String.singleton c)) rest
    else .error .unknownArgument

/-- Reads an option after two dashes before the name of a command. -/
def readRootLong (verbose : Bool) (word : String) (attached : Option String) :
    Except UsageError Bool :=
  if !(["help", "version", "verbose"].contains word) then .error .unknownArgument
  else if attached.isSome then .error .surplusValue
  else readRootFlag verbose word

/-- Reads a command line from the options before the name of the command on. Once two dashes stand alone,
no command can follow. -/
def parseFromRoot (verbose onlyPositional : Bool) : List String → Except UsageError Invocation
  | [] => .error (if verbose then .missingCommand else .noArguments)
  | arg :: rest =>
    let isCommand := arg == "help" || (CommandName.ofWord? arg).isSome
    if onlyPositional then .error (if isCommand then .unknownArgument else .unknownCommand)
    else if arg == "help" then .error (parseHelp rest)
    else
      match CommandName.ofWord? arg with
      | some name => parseCommand verbose name rest
      | none =>
        match arg.toList with
        | ['-', '-'] => parseFromRoot verbose true rest
        | '-' :: '-' :: word => do
          let (word, attached) := cutAttached word
          parseFromRoot (← readRootLong verbose word attached) false rest
        | '-' :: c :: letters => do
          parseFromRoot (← readRootShort verbose (c :: letters)) false rest
        | _ => .error .unknownCommand

/-- Reads a command line. -/
def parseCommandLine (args : List String) : Except UsageError Invocation :=
  parseFromRoot false false args

end CodeAtlas
