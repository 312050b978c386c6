import SqlDialect.Address
import SqlDialect.Translator

/-!
# Failures

A `Failure` is why an operation on a database, on the settings or on a statement gives no answer. Each belongs to a
`Category`, whose words come before the reason in `Failure.message`.
-/

namespace SqlDialect

/-- The categories of failures. -/
inductive Category where
  | statement
  | database
  | connection
  | execution
  | settings
  deriving DecidableEq, Repr

/-- The words for a category. -/
def Category.words : Category → String
  | statement => "Translation error"
  | database => "Database error"
  | connection => "Connection error"
  | execution => "Execution error"
  | settings => "Configuration error"

/-- The name of a category. -/
def Category.name : Category → String
  | statement => "Translation"
  | database => "Database"
  | connection => "Connection"
  | execution => "Execution"
  | settings => "Config"

/-- Why a reading or writing of files fails. -/
inductive FileFault where
  | notFound
  | exists
  | notDirectory
  | isDirectory
  | notText
  | nameTooLong
  /-- The path holds a zero character. -/
  | zero
  deriving DecidableEq, Repr

/-- A file fault in words. -/
def FileFault.message : FileFault → String
  | notFound => "No such file or directory (os error 2)"
  | .exists => "File exists (os error 17)"
  | notDirectory => "Not a directory (os error 20)"
  | isDirectory => "Is a directory (os error 21)"
  | notText => "stream did not contain valid UTF-8"
  | nameTooLong => "File name too long (os error 36)"
  | zero => "file name contained an unexpected NUL byte"

/-- Why there is no answer. -/
inductive Failure where
  /-- The statement cannot be translated. -/
  | untranslatable (e : StatementError)
  /-- The engine refuses the translated statement. -/
  | refused (reason : String) (statement : Text)
  /-- The engine does not take the values for a query. -/
  | unbound (reason : String)
  /-- The engine breaks off a query at one of its rows. -/
  | broken (reason : String)
  /-- A query for one row has none. -/
  | noRows
  /-- The address of the networked database is refused. -/
  | refusedAddress (r : Address.Refusal)
  /-- There is no way to reach the networked database. -/
  | unreachable
  /-- The embedded database of the given name cannot be opened. -/
  | unopened (name reason : String)
  /-- The settings document cannot be read. -/
  | unreadSettings (path : String) (fault : FileFault)
  /-- The settings document is malformed. -/
  | malformedSettings
  deriving Repr

namespace Failure

/-- The category of a failure. -/
def category : Failure → Category
  | untranslatable _ => .statement
  | refused _ _ | unbound _ | noRows => .execution
  | broken _ => .database
  | refusedAddress _ | unreachable | unopened _ _ => .connection
  | unreadSettings _ _ | malformedSettings => .settings

/-- The reason in words. -/
def detail : Failure → String
  | untranslatable e => e.cause.message ++ "\n  in query: " ++ String.ofList e.query
  | refused reason statement => reason ++ ": " ++ String.ofList statement
  | unbound reason | broken reason => reason
  | noRows => "Query returned no rows"
  | refusedAddress r => "error with configuration: " ++ r.message
  | unreachable => "error with configuration: the networked database cannot be reached"
  | unopened name reason => name ++ ": " ++ reason
  | unreadSettings path fault => "Cannot read " ++ path ++ ": " ++ fault.message
  | malformedSettings => "TOML parse error"

/-- The failure in words. -/
def message (f : Failure) : String := f.category.words ++ ": " ++ f.detail

/-- The failure in words with those of its causes behind it. Only a statement that cannot be translated has a cause of
its own. -/
def chain (f : Failure) : String :=
  match f with
  | untranslatable e => f.message ++ ": " ++ e.cause.message
  | _ => f.message

end Failure

end SqlDialect
