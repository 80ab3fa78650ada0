/-
JsonLines.Main — the command line.

Reads the files that a request names, lets `Completion.ofRequest` decide, and then writes and prints
what it decided.
-/
import JsonLines.Columns.Document
import JsonLines.Command.Completion

namespace JsonLines.Main

/-- The message of a system error. -/
def reason : IO.Error → String
  | .noFileOrDirectory .. => Files.noSuchFile
  | .inappropriateType _ _ "not a directory" => Files.notADirectory
  | .inappropriateType _ 21 _ => Files.isADirectory
  | .permissionDenied _ 13 _ => "Permission denied (os error 13)"
  | e => toString e

/-- What is found at a path of the file system. -/
def lookUp (path : String) : IO Found := do
  try
    return .file (← IO.FS.readBinFile path)
  catch
    | .noFileOrDirectory .. => return .missing
    | .inappropriateType _ 21 _ => return .directory
    | e => return .unreadable (reason e)

/-- The files that a request reads; none that it writes is in the way. -/
def filesOf (request : Request) : IO Files := do
  let input ← lookUp request.command.input
  let config ← match request.config with
    | none => pure Found.missing
    | some path => lookUp path
  return {
    find := fun path => if path = request.command.input then input else config
    whyNotCreated := fun _ => none }

/-- Writes a table; the reason if that cannot be done. -/
def write (table : Export) : IO (Option String) := do
  try
    IO.FS.writeFile table.path ((table.batch.toJson table.layout).compact ++ "\n")
    return none
  catch e => return some (reason e)

/-- Runs a request and writes its file, if it has one. -/
def run (request : Request) : IO Completion := do
  let files ← filesOf request
  let completion := Completion.ofRequest request files
  match completion.export? with
  | none => return completion
  | some table =>
    match ← write table with
    | none => return completion
    | some reason =>
      return Completion.ofRequest request { files with whyNotCreated := fun _ => some reason }

/-- Runs the command line: what an executable of this library calls. -/
def main (args : List String) : IO UInt32 := do
  match Arguments.parse args with
  | .error refusal =>
    let completion := Completion.ofRefusal refusal
    IO.print completion.output
    unless refusal.isAnswer do IO.eprintln refusal.message
    return UInt32.ofNat completion.exit
  | .ok request =>
    let completion ← run request
    IO.print completion.output
    IO.eprint (completion.failure.getD "")
    return UInt32.ofNat completion.exit

end JsonLines.Main
