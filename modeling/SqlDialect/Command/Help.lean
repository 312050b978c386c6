import SqlDialect.Command.Arguments

/-!
# Help

The help on the program lists its commands and options, that on a command its operands and options. Names stand in a
column of their own with their sentences behind them. Options are listed by their places, the common ones and those of
the command counted apart, and at one place by the letter or the name.

* `helpText` is the help on the program or on a command.
-/

namespace SqlDialect.Command

/-! ## Sentences -/

/-- What an option is for. -/
def OptionName.about : OptionName → String
  | config => "Configuration file (default: ./labsql.toml, then the user config dir)"
  | schema => "Schema qualifier to strip (overrides the configuration)"
  | database => "Embedded database file (overrides the configuration)"
  | databaseUrl => "Networked database URL (overrides the configuration)"
  | verbose => "Verbose output"
  | version => "Print version"
  | help => "Print help"
  | file => "Read the query from a file instead"
  | apply => "Create the view in the embedded database"
  | execute => "Execute statements instead of only compiling them"
  | bind => "Parameter bindings for the `%s` markers, in order"
  | format => "Output format"
  | network => "Run against the networked database instead"

namespace CommandName

/-- What a command does. -/
def about : CommandName → String
  | translate => "Print the SQLite form of a MySQL query"
  | view => "Translate a CREATE VIEW definition"
  | verify => "Translate every statement of a script and check it against the embedded database"
  | query => "Run a MySQL-dialect query against the embedded database"
  | copyViews => "Copy view definitions from the networked database into the embedded one"
  | help => "Print this message or the help of the given subcommand(s)"

/-- What the operand of a command is. -/
def aboutOperand : CommandName → String
  | translate => "The query to translate"
  | view => "File holding the MySQL view definition"
  | verify => "Script with `;`-separated statements"
  | query => "The query to run"
  | copyViews => "View names"
  | help => "Print help for the subcommand(s)"

end CommandName

/-- What the program does. -/
def aboutProgram : String := "Port laboratory MySQL queries and views to SQLite"

/-- Calls of the program for a start. -/
def examples : String :=
  "EXAMPLES:\n" ++
  "    labsql translate 'select (t + interval 30 second) from hte_data.runs'\n" ++
  "    labsql view v_runs.sql --apply\n" ++
  "    labsql query 'select * from hte_data.runs where id = %s' --bind 42 --format json\n" ++
  "    labsql port-views v_runs v_samples --database-url mysql://lab@db/hte_data"

/-! ## Blocks -/

/-- A block of lines under its title. -/
def block (title : String) (lines : List String) : String := title ++ ":\n" ++ "\n".intercalate lines

/-- Names with their sentences in two columns; a sentence of several lines stays in its column. -/
def columns (entries : List (String × String)) : List String :=
  let width := (entries.map (·.1.length)).foldl max 0
  entries.map fun (name, about) =>
    let lines := ("\n".pushn ' ' (width + 4)).intercalate (about.splitOn "\n")
    "  " ++ name.pushn ' ' (width - name.length) ++ "  " ++ lines

/-- The operand as it stands in a call: in brackets if it may be left out. -/
def OperandSpec.shape (o : OperandSpec) : String :=
  (if o.required then "<" ++ o.name ++ ">" else "[" ++ o.name ++ "]") ++ (if o.repeats then "..." else "")

/-- The spellings of an option and its value. -/
def OptionSpec.shape (o : OptionSpec) : String :=
  let letter := match o.short with
    | some c => "-" ++ c.toString ++ ", "
    | none => "    "
  let value := String.ofList (o.long.toList.map fun c => if c = '-' then '_' else c.toUpper)
  letter ++ "--" ++ o.long ++ (if o.kind = .flag then "" else " <" ++ value ++ ">")

/-- What is said behind the sentence of an option: where its value comes from if it is not given, and the values that
it takes. -/
def OptionSpec.notes (o : OptionSpec) (url : String) : String :=
  if o.name = .databaseUrl then " [env: LABSQL_DATABASE_URL=" ++ url ++ "]"
  else if o.name = .format then " [default: table] [possible values: table, json]"
  else ""

/-- The spellings of an option and its sentence. -/
def OptionSpec.entry (o : OptionSpec) (url : String) : String × String := (o.shape, o.name.about ++ o.notes url)

/-- What orders an option that stands at a place of its list: the place, with those that end the reading behind all
others, and the letter or the name. -/
def OptionSpec.order (entry : OptionSpec × Nat) : Nat × String :=
  let o := entry.1
  let last := o.name = .help || o.name = .version
  (if last then 999 else entry.2, (o.short.map fun c => c.toLower.toString).getD o.long)

/-- The options of a level in the order in which they are listed. -/
def LevelSpec.listed (spec : LevelSpec) : List OptionSpec :=
  let earlier (a b : OptionSpec × Nat) : Bool :=
    let (i, s) := OptionSpec.order a
    let (j, t) := OptionSpec.order b
    i < j || i == j && !decide (t < s)
  ((commonOptions.zipIdx ++ spec.ownOptions.zipIdx).mergeSort earlier).map Prod.fst

/-! ## The texts -/

/-- The help on the program, or on a command. The address of the networked database in the environment is `url`. -/
def helpText (command : Option CommandName) (url : String) : String :=
  match command with
  | none =>
    "\n\n".intercalate
      [aboutProgram, "Usage: labsql [OPTIONS] <COMMAND>",
        block "Commands" (columns (CommandName.all.map fun c => (c.word, c.about))),
        block "Options" (columns (programLevel.listed.map (·.entry url))), examples] ++ "\n"
  | some .help =>
    "\n\n".intercalate
      [CommandName.help.about, "Usage: labsql help " ++ CommandName.help.operand.shape,
        block "Arguments" (columns [(CommandName.help.operand.shape, CommandName.help.aboutOperand)])] ++ "\n"
  | some c =>
    "\n\n".intercalate
      [c.about, "Usage: labsql " ++ c.word ++ " [OPTIONS] " ++ c.operand.shape,
        block "Arguments" (columns [(c.operand.shape, c.aboutOperand)]),
        block "Options" (columns (c.level.listed.map (·.entry url)))] ++ "\n"

end SqlDialect.Command
