import Bookable.Command.Run
import Bookable.Store.Archive
import Bookable.Yaml.Document
import Std.Time.DateTime.Timestamp

/-!
# The command

Reads the files that the arguments name, runs the command line, writes the records
back and shows the result. All decisions are made by `Command.run`.
-/

namespace Bookable.Terminal

open Time Store Command

/-- The text of a file that can be read. -/
def fileText? (path : String) : IO (Option String) := do
  try
    return some (← IO.FS.readFile path)
  catch _ =>
    return none

/-- The time on the clock of the machine. -/
def clock : IO Instant := do
  let nanoseconds := (← Std.Time.Timestamp.now).toNanosecondsSinceUnixEpoch.val
  return (Instant.ofMicros? (nanoseconds / 1000 + unixEpoch * second)).getD ⟨0, by decide⟩

/-- The documents of those files that the arguments may mean. -/
def folder (arguments : List String) : IO Folder := do
  let chosen := match Line.read arguments with
    | .found line => line.settingsFile.toList
    | _ => []
  let mut files := []
  for path in Settings.defaultFile :: chosen ++ arguments do
    if let some text ← fileText? path then files := (path, Yaml.read text) :: files
  return { path := toString (← IO.currentDir), files }

/-- The archive of a database, or nothing if it holds something else. -/
def archive? (path : Option String) : IO (Option Archive) := do
  match path with
  | none => return some {}
  | some path =>
      match ← fileText? path with
      | none => return some {}
      | some text => return Archive.read? text

/-- Shows a run and gives its exit code. -/
def showRun (run : Run) : IO UInt32 := do
  for item in run.shown do
    for line in item.plainLines do
      IO.println line
  if let some kind := run.fault then IO.eprintln kind.name
  if run.exit = 2 then IO.eprintln ("Usage: slotbook [-c FILE] COMMAND [ARGUMENTS]")
  return run.exit.toUInt32

end Bookable.Terminal

open Bookable Bookable.Terminal in
def main (arguments : List String) : IO UInt32 := do
  let folder ← folder arguments
  let path := Command.databaseOf folder arguments
  match ← archive? path with
  | none =>
      IO.eprintln "The database cannot be read."
      return 1
  | some archive =>
      let databases := (path.map fun path => (path, archive.records)).toList
      let supply := { now := ← clock, issued := archive.issued }
      let (run, world) := Command.run { folder, databases, supply } arguments
      for (path, records) in world.databases do
        IO.FS.writeFile path ({ records, issued := world.supply.issued : Store.Archive }).text
      showRun run
