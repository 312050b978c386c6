import SqlDialect.Text

/-!
# Command-line arguments

An option is given as `--name value`, `--name=value`, `-n value`, `-nvalue` or `-n=value`; short flags may be joined.
Options common to all commands may stand before or behind the command's name, and the last place wins; at one place an
option that does not repeat stands at most once. A value does not start with a dash unless it is joined to its option,
a lone dash apart. Behind `--` there are only operands, so it may not stand before the
command's name. The arguments are read from left to right: what ends the reading first decides.

* `Invocation.read` reads the arguments of the program.
-/

namespace SqlDialect.Command

/-! ## Options -/

/-- The names of all options. -/
inductive OptionName where
  | config
  | schema
  | database
  | databaseUrl
  | verbose
  | version
  | help
  | file
  | apply
  | execute
  | bind
  | format
  | network
  deriving DecidableEq, Repr

/-- The values that an option takes. -/
inductive ValueKind where
  /-- None: the option is a flag. -/
  | flag
  /-- A text. -/
  | text
  /-- A path, which is not empty. -/
  | path
  /-- One of the names of an output format. -/
  | format
  deriving DecidableEq, Repr

/-- An option with its spellings. -/
structure OptionSpec where
  name : OptionName
  long : String
  short : Option Char
  kind : ValueKind
  repeats : Bool
  deriving DecidableEq, Repr

/-- The options common to all commands. -/
def commonOptions : List OptionSpec :=
  [⟨.config, "config", some 'c', .path, false⟩, ⟨.schema, "schema", none, .text, false⟩,
    ⟨.database, "db", none, .path, false⟩, ⟨.databaseUrl, "database-url", none, .text, false⟩,
    ⟨.verbose, "verbose", some 'v', .flag, false⟩, ⟨.help, "help", some 'h', .flag, false⟩]

/-! ## Commands -/

/-- The names of the commands. -/
inductive CommandName where
  | translate
  | view
  | verify
  | query
  | copyViews
  | help
  deriving DecidableEq, Repr

namespace CommandName

/-- All commands. -/
def all : List CommandName := [translate, view, verify, query, copyViews, help]

/-- The word that calls a command. -/
def word : CommandName → String
  | translate => "translate"
  | view => "view"
  | verify => "verify"
  | query => "query"
  | copyViews => "port-views"
  | help => "help"

/-- The command that a word calls. -/
def ofWord? (w : String) : Option CommandName := all.find? (·.word == w)

/-- Every command is called by its word. -/
theorem ofWord?_word (c : CommandName) : ofWord? c.word = some c := by cases c <;> decide

end CommandName

/-- What stands behind the options: one operand or several of one kind. -/
structure OperandSpec where
  name : String
  kind : ValueKind
  required : Bool
  repeats : Bool
  deriving DecidableEq, Repr

/-- What a list of arguments may hold: the program's own, up to the command's name, or those of a command. -/
structure LevelSpec where
  command : Option CommandName
  /-- The options beside the common ones. -/
  ownOptions : List OptionSpec
  operand : OperandSpec
  /-- Does the reading stop behind the first operand? -/
  stops : Bool
  deriving DecidableEq, Repr

/-- All options of a level. -/
def LevelSpec.options (spec : LevelSpec) : List OptionSpec := commonOptions ++ spec.ownOptions

/-- The arguments of the program up to the command's name. -/
def programLevel : LevelSpec :=
  ⟨none, [⟨.version, "version", some 'V', .flag, false⟩], ⟨"COMMAND", .text, true, false⟩, true⟩

/-- The options that only one command has. -/
def CommandName.options : CommandName → List OptionSpec
  | translate => [⟨.file, "file", some 'f', .path, false⟩]
  | view => [⟨.apply, "apply", none, .flag, false⟩]
  | verify => [⟨.execute, "execute", none, .flag, false⟩]
  | query =>
    [⟨.bind, "bind", some 'b', .text, true⟩, ⟨.format, "format", some 'f', .format, false⟩,
      ⟨.network, "network", none, .flag, false⟩]
  | copyViews => []
  | help => []

/-- The operands of a command. -/
def CommandName.operand : CommandName → OperandSpec
  | translate => ⟨"QUERY", .text, false, false⟩
  | view => ⟨"FILE", .path, true, false⟩
  | verify => ⟨"FILE", .path, true, false⟩
  | query => ⟨"QUERY", .text, true, false⟩
  | copyViews => ⟨"NAMES", .text, true, true⟩
  | help => ⟨"COMMAND", .text, false, true⟩

/-- The arguments behind the command's name. -/
def CommandName.level (c : CommandName) : LevelSpec := ⟨some c, c.options, c.operand, false⟩

/-! ## One option or operand -/

/-- An option with its value, which a flag leaves empty. -/
abbrev Given := OptionName × String

/-- Why the arguments are not run as a command. -/
inductive Stop where
  /-- They are no command. -/
  | misuse
  /-- They ask for the version. -/
  | version
  /-- They ask for help, on the program or on a command. -/
  | help (command : Option CommandName)
  deriving DecidableEq, Repr

/-- Is the value one that the option takes? -/
def ValueKind.accepts : ValueKind → String → Bool
  | flag, _ => true
  | text, _ => true
  | path, value => !value.isEmpty
  | format, value => value == "table" || value == "json"

/-- The options given so far with one more. -/
def addOption (spec : LevelSpec) (given : List Given) (o : OptionSpec) (value : String) : Except Stop (List Given) :=
  if o.name = .version then .error .version
  else if o.name = .help then .error (.help spec.command)
  else if !o.repeats && given.any (·.1 = o.name) then .error .misuse
  else if o.kind.accepts value then .ok (given ++ [(o.name, value)])
  else .error .misuse

/-- The operands so far with one more. -/
def addOperand (spec : LevelSpec) (operands : List String) (value : String) : Except Stop (List String) :=
  if !spec.operand.repeats && !operands.isEmpty then .error .misuse
  else if spec.operand.kind.accepts value then .ok (operands ++ [value])
  else .error .misuse

/-- Can the argument be an operand or the value of an option before it? -/
def isOperand (argument : String) : Bool := !argument.startsWith "-" || argument == "-"

/-- The value for an option that has none joined to it, and the arguments behind it. -/
def takeValue : List String → Except Stop (String × List String)
  | value :: rest => if isOperand value then .ok (value, rest) else .error .misuse
  | [] => .error .misuse

/-- The name of a long option and the value joined to it. -/
def splitLong (body : Text) : String × Option String :=
  let name := body.takeWhile (· ≠ '=')
  match body.dropWhile (· ≠ '=') with
  | _ :: value => (String.ofList name, some (String.ofList value))
  | [] => (String.ofList name, none)

/-- The options given so far with the long option `body`, and the arguments behind it. -/
def readLong (spec : LevelSpec) (given : List Given) (body : Text) (rest : List String) :
    Except Stop (List Given × List String) :=
  match splitLong body with
  | (name, joined) =>
    match spec.options.find? (·.long == name) with
    | none => .error .misuse
    | some o =>
      match o.kind, joined with
      | .flag, some _ => .error .misuse
      | .flag, none => (addOption spec given o "").map (·, rest)
      | _, some value => (addOption spec given o value).map (·, rest)
      | _, none => do
        let (value, rest) ← takeValue rest
        return (← addOption spec given o value, rest)

/-- The options given so far with the short options joined in `letters`, and the arguments behind them. -/
def readShort (spec : LevelSpec) (given : List Given) (letters : Text) (rest : List String) :
    Except Stop (List Given × List String) :=
  match letters with
  | [] => .ok (given, rest)
  | c :: letters =>
    match spec.options.find? (·.short == some c) with
    | none => .error .misuse
    | some o =>
      match o.kind, letters with
      | .flag, _ =>
        match addOption spec given o "" with
        | .error e => .error e
        | .ok given => readShort spec given letters rest
      | _, [] => do
        let (value, rest) ← takeValue rest
        return (← addOption spec given o value, rest)
      | _, '=' :: value => (addOption spec given o (String.ofList value)).map (·, rest)
      | _, value => (addOption spec given o (String.ofList value)).map (·, rest)

/-! ## One level of arguments -/

/-- The options and operands of a list of arguments, and what is left of it. -/
structure Level where
  options : List Given := []
  operands : List String := []
  rest : List String := []
  deriving DecidableEq, Repr

/-- The options and operands of the arguments for at most `fuel` arguments. -/
def readLevel (spec : LevelSpec) : (fuel : Nat) → Level → List String → Except Stop Level
  | _, level, [] => .ok level
  | 0, _, _ :: _ => .error .misuse
  | fuel + 1, level, argument :: rest =>
    match argument.toList with
    | ['-', '-'] =>
      if spec.stops then .error .misuse
      else (rest.foldlM (addOperand spec) level.operands).map fun operands => { level with operands := operands }
    | '-' :: '-' :: body =>
      match readLong spec level.options body rest with
      | .error e => .error e
      | .ok (options, rest) => readLevel spec fuel { level with options := options } rest
    | '-' :: c :: letters =>
      match readShort spec level.options (c :: letters) rest with
      | .error e => .error e
      | .ok (options, rest) => readLevel spec fuel { level with options := options } rest
    | _ =>
      match addOperand spec level.operands argument with
      | .error e => .error e
      | .ok operands =>
        let level := { level with operands := operands }
        if spec.stops then .ok { level with rest := rest } else readLevel spec fuel level rest

/-! ## Invocations -/

/-- The forms of results. -/
inductive Format where
  | table
  | json
  deriving DecidableEq, Repr

/-- What the program is asked to do. -/
inductive Task where
  /-- Shows the embedded form of a query, given itself or by a file. -/
  | translate (query file : Option String)
  /-- Translates the view definition in a file, and with `apply` makes the view. -/
  | view (file : String) (apply : Bool)
  /-- Checks the statements of a script, and with `execute` runs them. -/
  | verify (file : String) (execute : Bool)
  /-- Runs a query with bound values, with `network` on the networked database. -/
  | query (sql : String) (values : List String) (format : Format) (network : Bool)
  /-- Copies views of the networked database into the embedded one. -/
  | copyViews (names : List String)
  deriving DecidableEq, Repr

/-- The arguments of the program: the options common to all tasks, and the task. -/
structure Invocation where
  options : List Given
  task : Task
  deriving DecidableEq, Repr

namespace Invocation

/-- The value of an option; the last one given counts. -/
def value? (options : List Given) (name : OptionName) : Option String :=
  (options.reverse.find? (·.1 = name)).map Prod.snd

/-- Is the option given? -/
def has (options : List Given) (name : OptionName) : Bool := options.any (·.1 = name)

/-- The values of an option that are joined by commas. -/
def values (options : List Given) (name : OptionName) : List String :=
  (options.filter (·.1 = name)).flatMap fun o => o.2.splitOn ","

/-- The task of a command with the given options and operands. -/
def task? (command : CommandName) (options : List Given) (operands : List String) : Option Task :=
  match command, operands with
  | .translate, [] => some (.translate none (value? options .file))
  | .translate, [query] => if has options .file then none else some (.translate (some query) none)
  | .view, [file] => some (.view file (has options .apply))
  | .verify, [file] => some (.verify file (has options .execute))
  | .query, [sql] =>
    let format := if value? options .format = some "json" then .json else .table
    some (.query sql (values options .bind) format (has options .network))
  | .copyViews, name :: names => some (.copyViews (name :: names))
  | _, _ => none

/-- What the arguments behind the word for help ask for. One names a command, and no command has commands of its
own. -/
def helpOn : List String → Stop
  | [] => .help none
  | [word] => if (CommandName.ofWord? word).isSome then .help (CommandName.ofWord? word) else .misuse
  | _ => .misuse

/-- The invocation that the arguments are. -/
def read (arguments : List String) : Except Stop Invocation := do
  let program ← readLevel programLevel (arguments.length + 1) {} arguments
  match program.operands.head?.bind CommandName.ofWord? with
  | none => throw .misuse
  | some .help => throw (helpOn program.rest)
  | some command =>
    let level ← readLevel command.level (program.rest.length + 1) {} program.rest
    match task? command level.options level.operands with
    | some task => return ⟨program.options ++ level.options, task⟩
    | none => throw .misuse

end Invocation

end SqlDialect.Command
