import Std.Time.Format
import SqlDialect.Command.Run

/-!
# The program

`main` gathers what a run can see, lets `Command.run` decide, and prints and writes what it comes to.
-/

namespace SqlDialect.Command

/-- What stands at a path. What exists and cannot be read as a file is taken for a directory. -/
def nodeAt (path : String) : IO (Option FileTree.Node) := do
  try
    return some (.file (← IO.FS.readBinFile path))
  catch _ =>
    try
      let _ ← IO.FS.realPath path
      return some .directory
    catch _ => return none

/-- The tree with what stands at a path and on the way to it. -/
def look (tree : FileTree) (path : String) : IO FileTree := do
  let (start, names) := Place.ofPath path
  let ways := (List.range names.length).map fun k => names.take (k + 1)
  ways.foldlM (fun tree way => return tree.add (way.foldl Place.next start) (← nodeAt ("/".intercalate way))) tree

/-- The variables that the program takes notice of. -/
def variableNames : List String := ["HOME", "XDG_CONFIG_HOME", "LABSQL_DATABASE_URL"]

/-- What a run with the given arguments can see: first the settings documents, and then what the task looks at under
the settings. -/
def surroundings (arguments : List String) : IO Surroundings := do
  let values ← variableNames.filterMapM fun name => return (← IO.getEnv name).map (name, ·)
  let now ← Std.Time.DateTime.now
  let s : Surroundings :=
    { environment := values, stamp := now.format "uuuuMMdd-HHmmss", time := now.toISO8601String }
  match Invocation.read arguments with
  | .error _ => return s
  | .ok i =>
    let s := { s with files := ← (settingsPaths s i.options).foldlM look s.files }
    match runSettings s i.options with
    | .error _ => return s
    | .ok (settings, _) => return { s with files := ← (taskPaths settings i.task).foldlM look s.files }

end SqlDialect.Command

open SqlDialect.Command

/-- Runs the program. -/
def main (arguments : List String) : IO UInt32 := do
  let s ← surroundings arguments
  let outcome := run s arguments
  IO.print outcome.output
  IO.eprint (outcome.errors (·.isShown (isVerbose arguments)) fun e => s.time ++ " " ++ e.line)
  if let some r := outcome.report then
    IO.FS.createDirAll r.directory
    IO.FS.writeFile (SqlDialect.FileTree.join r.directory r.name) (r.verification.report (some s.time))
  return UInt32.ofNat (exitCode outcome.problem)
