import SqlDialect.Command.Files
import SqlDialect.Command.Help
import SqlDialect.Event
import SqlDialect.Report.Json
import SqlDialect.Report.Verification
import SqlDialect.Settings.Document
import SqlDialect.Store.Tables

/-!
# Running commands

`Command.runOn` maps the arguments and the surroundings of a run to its `Outcome`: what is printed, what is noted, the
exit code and the report to write. It changes nothing itself. The engine of the embedded database is a parameter;
`Command.run` takes the small one.

* `exitCode_ok`: a run exits with zero exactly if it ends without a problem.
-/

namespace SqlDialect.Command

/-! ## Surroundings and outcome -/

/-- What a run can see: its files, its environment of named variables, and the time in two forms, for the name and for
the text of a report. -/
structure Surroundings where
  files : FileTree := {}
  environment : List (String × String) := []
  stamp : String := ""
  time : String := ""

/-- The value of a variable. -/
def Surroundings.lookup? (s : Surroundings) (name : String) : Option String := s.environment.lookup name

/-- A problem that ends a run. -/
inductive Problem where
  /-- The arguments are no command. -/
  | misuse
  /-- A file cannot be read. -/
  | unread (path : String) (fault : FileFault)
  /-- The directory for reports cannot be made. -/
  | uncreated (path : String) (fault : FileFault)
  /-- There is neither a query nor a file. -/
  | noQuery
  /-- No networked database is named. -/
  | noAddress
  /-- Statements of a script failed. -/
  | failedStatements (count : Nat)
  /-- An operation failed. -/
  | failure (f : Failure)

/-- A problem in words. -/
def Problem.message : Problem → String
  | misuse => "Give a command; --help lists them"
  | unread path fault => "Cannot read " ++ path ++ ": " ++ fault.message
  | uncreated path fault => "Cannot create " ++ path ++ ": " ++ fault.message
  | noQuery => "Give a query or --file"
  | noAddress => "No database URL. Use --database-url or set LABSQL_DATABASE_URL"
  | failedStatements count => toString count ++ " statement(s) could not be ported"
  | failure f => f.chain

/-- The exit code of a run. -/
def exitCode : Option Problem → Nat
  | none => 0
  | some .misuse => 2
  | some _ => 1

/-- A run exits with zero exactly if it ends without a problem. -/
theorem exitCode_ok (p : Option Problem) : exitCode p = 0 ↔ p = none := by
  cases p with
  | none => simp [exitCode]
  | some p => cases p <;> simp [exitCode]

/-- A report and the directory that it is written to. -/
structure ReportFile where
  directory : String
  name : String
  verification : Report.Verification

/-- What a run comes to. -/
structure Outcome where
  output : String := ""
  events : List Event := []
  report : Option ReportFile := none
  /-- Rows that a query answered; they are printed too. -/
  rows : List Row := []
  problem : Option Problem := none

namespace Outcome

/-- An outcome that is ended by a problem. -/
def fail (o : Outcome) (p : Problem) : Outcome := { o with problem := some p }

/-- An outcome with more events. -/
def note (o : Outcome) (events : List Event) : Outcome := { o with events := o.events ++ events }

/-- An outcome with more output. -/
def print (o : Outcome) (text : String) : Outcome := { o with output := o.output ++ text }

/-- What is written to the error stream: the lines of the events that are shown, and the problem. -/
def errors (o : Outcome) (shown : Event → Bool) (line : Event → String := Event.line) : String :=
  String.join ((o.events.filter shown).map fun e => line e ++ "\n") ++
    (match o.problem with
      | some p => "Error: " ++ p.message ++ "\n"
      | none => "")

end Outcome

/-! ## Settings -/

/-- The settings in the document at a path. -/
def loadSettings (s : Surroundings) (path : String) : Except Failure Settings :=
  match s.files.read path with
  | .error fault => .error (.unreadSettings path fault)
  | .ok document =>
    match Settings.read? document with
    | some settings => .ok settings
    | none => .error .malformedSettings

/-- The directory for the settings of the user. -/
def settingsDirectory? (s : Surroundings) : Option String :=
  match (s.lookup? "XDG_CONFIG_HOME").filter (·.startsWith "/") with
  | some directory => some directory
  | none => ((s.lookup? "HOME").filter fun home => !home.isEmpty).map (FileTree.join · ".config")

/-- The paths of the settings documents that are looked for without one given: in the working directory, then in the
directory of the user. -/
def documentPaths (s : Surroundings) : List String :=
  "labsql.toml" ::
    ((settingsDirectory? s).map fun directory =>
      FileTree.join (FileTree.join directory "labsql") "config.toml").toList

/-- The path of the settings document: the one given, else the first one found. -/
def settingsPath? (s : Surroundings) (given : Option String) : Option String :=
  given.or ((documentPaths s).find? s.files.contains)

/-- The settings with those given as options in place of the loaded ones. -/
def overrideSettings (s : Surroundings) (options : List Given) (settings : Settings) : Settings :=
  let url := (Invocation.value? options .databaseUrl).or (s.lookup? "LABSQL_DATABASE_URL")
  { settings with
    schema := (Invocation.value? options .schema).getD settings.schema
    databasePath := (Invocation.value? options .database).getD settings.databasePath
    databaseUrl := url.or settings.databaseUrl }

/-- The settings of a run, and what loading them notes. -/
def runSettings (s : Surroundings) (options : List Given) : Except Failure (Settings × List Event) :=
  match settingsPath? s (Invocation.value? options .config) with
  | none => .ok (overrideSettings s options {}, [])
  | some path => (loadSettings s path).map fun settings => (overrideSettings s options settings, [.loadedSettings path])

/-! ## What a run looks at -/

/-- The paths of the settings documents that a run may read. -/
def settingsPaths (s : Surroundings) (options : List Given) : List String :=
  match Invocation.value? options .config with
  | some path => [path]
  | none => documentPaths s

/-- The path of the file of a database, as it is named and as it resolves. -/
def databasePaths (name : String) : List String :=
  match Location.read name with
  | .ok (.file path _) => [path, ((Place.ofPath path).2.foldl Place.next (Place.ofPath path).1).path]
  | _ => []

/-- The paths that a task looks at under the settings. -/
def taskPaths (settings : Settings) : Task → List String
  | .translate _ file => file.toList
  | .view file _ => file :: databasePaths settings.databasePath
  | .verify file _ => file :: settings.reportsDir :: databasePaths settings.databasePath
  | .query _ _ _ network => if network then [] else databasePaths settings.databasePath
  | .copyViews _ => []

/-! ## Tasks -/

section Engine

variable {σ : Type} (engine : Engine σ)

/-- The embedded database of the settings, and the files with its own. -/
def openDatabase (s : Surroundings) (settings : Settings) : Except Failure (Embedded σ × FileTree) :=
  match engine.connect s.files settings.databasePath with
  | .ok (state, files) => .ok (⟨settings.translator, state⟩, files)
  | .error reason => .error (.unopened settings.databasePath reason)

/-- The form of a query in the embedded dialect. -/
def runTranslate (settings : Settings) (verbose : Bool) (query : String) (o : Outcome) : Outcome :=
  let tr := settings.translator
  let o := if verbose then o.print ("Input: " ++ query ++ "\n") else o
  let o := o.note (tr.events query.toList)
  match tr.translate query.toList with
  | .error e => o.fail (.failure (.untranslatable e))
  | .ok text => o.print ("SQLite:\n" ++ String.ofList text ++ "\n")

/-- The form of a view definition in the embedded dialect, made as a view with `apply`. -/
def runView (s : Surroundings) (settings : Settings) (file : String) (apply : Bool) (o : Outcome) : Outcome :=
  let tr := settings.translator
  match s.files.read file with
  | .error fault => o.fail (.unread file fault)
  | .ok definition =>
    if apply then
      match openDatabase engine s settings with
      | .error f => o.fail (.failure f)
      | .ok (db, _) =>
        let o := o.note (.openedDatabase settings.databasePath :: tr.viewEvents definition.toList)
        match (db.createView engine definition.toList).1 with
        | .error f => o.fail (.failure f)
        | .ok text =>
          o.print (String.ofList text ++ "\n✓ Created view in " ++ settings.databasePath ++ "\n")
    else
      let o := o.note (tr.viewEvents definition.toList)
      match tr.translateView definition.toList with
      | .error e => o.fail (.failure (.untranslatable e))
      | .ok text => o.print (String.ofList text ++ "\n")

/-- The verification of a script, with its report. -/
def runVerify (s : Surroundings) (settings : Settings) (file : String) (execute : Bool) (o : Outcome) : Outcome :=
  match s.files.read file with
  | .error fault => o.fail (.unread file fault)
  | .ok script =>
    match openDatabase engine s settings with
    | .error f => o.fail (.failure f)
    | .ok (db, files) =>
      let statements := Report.statements script.toList
      let o := o.note (.openedDatabase settings.databasePath :: statements.flatMap settings.translator.events)
      let v : Report.Verification := ⟨file, settings.schema, Report.findings engine execute db statements⟩
      let lines := v.findings.zipIdx.map fun (f, i) => Report.Verification.outcomeLine (i + 1) f ++ "\n"
      let o := o.print
        ("📋 Checking " ++ toString statements.length ++ " statement(s) from " ++ file ++ "\n" ++ String.join lines)
      match files.makeDirectories settings.reportsDir with
      | .error fault => o.fail (.uncreated settings.reportsDir fault)
      | .ok _ =>
        let name := "verify-" ++ s.stamp ++ ".txt"
        let path := FileTree.join settings.reportsDir name
        let o := { o with report := some ⟨settings.reportsDir, name, v⟩ }
        let o := o.print
          ("\n" ++ toString (v.findings.length - v.failures) ++ " passed, " ++ toString v.failures ++
            " failed. Report: " ++ path ++ "\n")
        if v.failures = 0 then o else o.fail (.failedStatements v.failures)

/-- Rows in the form asked for. -/
def showRows (format : Format) (rows : List Row) : String :=
  if rows.isEmpty then "(no results)\n"
  else
    match format with
    | .table => Report.table rows
    | .json => Report.json rows

/-- Why the networked database of the settings is not reached. -/
def networkProblem (settings : Settings) : Problem :=
  match settings.databaseUrl with
  | none => .noAddress
  | some url =>
    match Address.refusal? url with
    | some r => .failure (.refusedAddress r)
    | none => .failure .unreachable

/-- The rows of a query of the embedded database. -/
def runQuery (s : Surroundings) (settings : Settings) (sql : String) (values : List String) (format : Format)
    (o : Outcome) : Outcome :=
  match openDatabase engine s settings with
  | .error f => o.fail (.failure f)
  | .ok (db, _) =>
    let o := o.note (.openedDatabase settings.databasePath :: settings.translator.events sql.toList)
    match (db.query engine sql.toList (values.map Value.ofArgument)).1 with
    | .error f => o.fail (.failure f)
    | .ok rows => { o with rows := rows }.print (showRows format rows)

/-- What a task comes to under the settings. -/
def runTask (s : Surroundings) (settings : Settings) (verbose : Bool) (task : Task) (o : Outcome) : Outcome :=
  match task with
  | .translate (some query) _ => runTranslate settings verbose query o
  | .translate none (some file) =>
    match s.files.read file with
    | .error fault => o.fail (.unread file fault)
    | .ok query => runTranslate settings verbose query o
  | .translate none none => o.fail .noQuery
  | .view file apply => runView engine s settings file apply o
  | .verify file execute => runVerify engine s settings file execute o
  | .query sql values format network =>
    if network then o.fail (networkProblem settings) else runQuery engine s settings sql values format o
  | .copyViews _ => o.fail (networkProblem settings)

/-! ## The program -/

/-- The line that the program answers when asked for its version. -/
def versionLine : String := "labsql 0.3.0\n"

/-- Are the arguments those of a verbose run? -/
def isVerbose (arguments : List String) : Bool :=
  match Invocation.read arguments with
  | .ok i => Invocation.has i.options .verbose
  | .error _ => false

/-- What the program comes to with the given arguments. -/
def runOn (s : Surroundings) (arguments : List String) : Outcome :=
  match Invocation.read arguments with
  | .error .misuse => { problem := some .misuse }
  | .error .version => { output := versionLine }
  | .error (.help command) => { output := helpText command ((s.lookup? "LABSQL_DATABASE_URL").getD "") }
  | .ok i =>
    match runSettings s i.options with
    | .error f => { problem := some (.failure f) }
    | .ok (settings, events) =>
      runTask engine s settings (Invocation.has i.options .verbose) i.task { events := events }

end Engine

/-- What the program comes to with the small engine. -/
def run (s : Surroundings) (arguments : List String) : Outcome := runOn Tables.engine s arguments

end SqlDialect.Command
