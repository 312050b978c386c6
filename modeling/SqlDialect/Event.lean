import SqlDialect.Text.Quoted
import SqlDialect.Translator

/-!
# Log events

What the program notes while it works, from warnings to details for a verbose run. An event belongs to a part of the
program, its target, and is written on one line with its level in front and its fields behind the message.

* `events_of_error`: a statement that cannot be translated notes nothing.
-/

namespace SqlDialect

/-- How important an event is. -/
inductive Level where
  | warning
  | info
  | detail
  deriving DecidableEq, Repr

/-- The word for a level, five characters wide. -/
def Level.word : Level → String
  | warning => " WARN"
  | info => " INFO"
  | detail => "DEBUG"

/-- What is noted. -/
inductive Event where
  /-- Settings were read from a document. -/
  | loadedSettings (path : String)
  /-- The embedded database was opened. -/
  | openedDatabase (path : String)
  /-- Options were dropped from the header of a view. -/
  | normalizedHeader (header : View.Header)
  /-- A run of parentheses has too few closing ones. -/
  | shortfall (s : View.Shortfall)
  /-- Qualifiers were dropped. -/
  | strippedQualifiers (schema : Text) (count : Nat)
  /-- A statement was changed. -/
  | translated (query result : Text)
  deriving DecidableEq, Repr

namespace Event

/-- How important an event is. -/
def level : Event → Level
  | shortfall _ => .warning
  | openedDatabase _ => .info
  | _ => .detail

/-- The part of the program that an event comes from. -/
def target : Event → String
  | loadedSettings _ => "labsql::config"
  | openedDatabase _ => "labsql::embedded"
  | normalizedHeader _ | shortfall _ => "labsql::transpiler::view"
  | strippedQualifiers _ _ => "labsql::transpiler::schema"
  | translated _ _ => "labsql::transpiler"

/-- A text in quotes. -/
def quoted (text : Text) : String := String.ofList (Quoted.write text)

/-- A header option with the name of its kind. -/
def option : View.HeaderOption → String
  | .algorithm name => "Algorithm(" ++ quoted name ++ ")"
  | .definer account => "Definer(" ++ quoted account ++ ")"
  | .security runAs => "SqlSecurity(" ++ quoted runAs.name.toList ++ ")"

/-- The message of an event with its fields. -/
def message : Event → String
  | loadedSettings path => "loaded configuration path=" ++ path
  | openedDatabase path => "opened embedded database path=" ++ path
  | normalizedHeader h =>
    "normalized view header options=[" ++ ", ".intercalate (h.options.map option) ++ "] or_replace=" ++
      (if h.orReplace then "true" else "false")
  | shortfall s =>
    "over-nested from clause has fewer closing parentheses than expected openers=" ++ toString s.openers ++
      " closers=" ++ toString s.closers
  | strippedQualifiers schema count =>
    "stripped schema qualifiers schema=" ++ quoted schema ++ " stripped=" ++ toString count
  | translated query result =>
    "translated query original=" ++ quoted query ++ " translated=" ++ String.ofList result

/-- The line of an event, without the time. -/
def line (e : Event) : String := e.level.word ++ " " ++ e.target ++ ": " ++ e.message

/-- Is the event shown? Without the verbose flag only warnings are. -/
def isShown (verbose : Bool) (e : Event) : Bool := verbose || e.level = .warning

end Event

/-! ## What translating notes -/

namespace Translator

/-- What translating a statement notes. -/
def events (tr : Translator) (query : Text) : List Event :=
  match convertTimes query with
  | .error _ => []
  | .ok text =>
    let stripped := Qualifier.strip tr.schema (convertNames text)
    let result := Comment.convert stripped.text
    (if 0 < stripped.removed then [.strippedQualifiers tr.schema stripped.removed] else []) ++
      (if result ≠ query then [.translated query result] else [])

/-- A statement that cannot be translated notes nothing. -/
theorem events_of_error {tr : Translator} {query : Text} {e : StageError} (h : tr.run query = .error e) :
    tr.events query = [] := by
  cases he : convertTimes query with
  | error _ => simp [events, he]
  | ok text => simp [run, he] at h

/-- What translating a view definition notes. -/
def viewEvents (tr : Translator) (definition : Text) : List Event :=
  let header :=
    match View.Header.read (Text.trimStart definition) with
    | .ok h => if h.options.isEmpty && !h.orReplace then [] else [Event.normalizedHeader h]
    | .error _ => []
  header ++ (View.shortfalls (View.normalizeHeader definition)).map .shortfall ++ tr.events (normalizeView definition)

end Translator

end SqlDialect
