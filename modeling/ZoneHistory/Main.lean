import ZoneHistory.Command

/-!
# The program

Reads the files that the arguments name, and leaves the rest to `Command.run`.
-/

namespace ZoneHistory.Command

/-- The content of a file, if it is a text that can be read. -/
def readText (path : String) : IO (Option String) := do
  try
    return some (← IO.FS.readFile path)
  catch _ =>
    return none

end ZoneHistory.Command

open ZoneHistory

/-- The program: prints what the command prints and exits with its status. -/
def main (args : List String) : IO UInt32 := do
  let files := ((Command.Request.parse args).map (·.files)).getD []
  let contents ← files.mapM fun path => do return (path, ← Command.readText path)
  let result := Command.run (fun path => (contents.lookup path).join) args
  IO.print result.output
  if result.status = Command.badUsage then
    IO.eprint Command.usage
  return result.status.toUInt32
