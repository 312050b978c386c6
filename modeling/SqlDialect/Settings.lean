import SqlDialect.Translator

/-!
# Settings

The settings name the schema whose qualifier is dropped, the networked database, the file of the embedded one and the
directory for reports. Each has a `Setting` as its name; settings are made from the defaults by setting one after the
other.

* `get_set`: a setting that is set has its new value.
* `get_set_of_ne`: the other settings keep theirs.
-/

namespace SqlDialect

/-- The settings of the program. -/
structure Settings where
  schema : String := defaultSchema
  databaseUrl : Option String := none
  databasePath : String := "hte.sqlite"
  reportsDir : String := "reports"
  deriving DecidableEq, Repr

/-- The names of the settings. -/
inductive Setting where
  | schema
  | databaseUrl
  | databasePath
  | reportsDir
  deriving DecidableEq, Repr

namespace Setting

/-- The key of a setting in a document. -/
def key : Setting → String
  | schema => "schema_name"
  | databaseUrl => "database_url"
  | databasePath => "embedded_db_path"
  | reportsDir => "reports_dir"

/-- The setting with the given key. -/
def ofKey? (key : String) : Option Setting :=
  [schema, databaseUrl, databasePath, reportsDir].find? (·.key == key)

end Setting

namespace Settings

/-- The settings with one of them set. -/
def set (s : Settings) (name : Setting) (value : String) : Settings :=
  match name with
  | .schema => { s with schema := value }
  | .databaseUrl => { s with databaseUrl := some value }
  | .databasePath => { s with databasePath := value }
  | .reportsDir => { s with reportsDir := value }

/-- The value of a setting. -/
def get? (s : Settings) : Setting → Option String
  | .schema => some s.schema
  | .databaseUrl => s.databaseUrl
  | .databasePath => some s.databasePath
  | .reportsDir => some s.reportsDir

/-- A setting that is set has its new value. -/
@[simp] theorem get_set (s : Settings) (name : Setting) (value : String) :
    (s.set name value).get? name = some value := by
  cases name <;> rfl

/-- The other settings keep theirs. -/
theorem get_set_of_ne (s : Settings) {name other : Setting} (value : String) (h : other ≠ name) :
    (s.set name value).get? other = s.get? other := by
  cases name <;> cases other <;> first | rfl | exact absurd rfl h

/-- The defaults with the given settings set from left to right. -/
def ofList (values : List (Setting × String)) : Settings := values.foldl (fun s v => s.set v.1 v.2) {}

/-- The translator for the schema of the settings. -/
def translator (s : Settings) : Translator := ⟨s.schema.toList⟩

end Settings

end SqlDialect
