/-
JsonLines.Config.FromFile — settings in a file.

A file whose name ends in `.json` holds JSON, any other one YAML. A name that only starts with a
point has no ending.
-/
import JsonLines.Config.FromJson
import JsonLines.Config.FromYaml
import JsonLines.Source.Files

namespace JsonLines.Config

/-- What follows the last point of the last name on a path, unless nothing precedes it. -/
def extension? (path : String) : Option (List Char) :=
  match (Files.names path).getLast? with
  | none => none
  | some name =>
    let ending := (name.reverse.takeWhile (· != '.')).reverse
    let stem := name.take (name.length - ending.length - 1)
    if ending.length = name.length || stem.isEmpty || name = ['.', '.'] then none else some ending

/-- The settings that the bytes of a file write. -/
def ofBytes (path : String) (bytes : ByteArray) : Except Error Config :=
  match Utf8.decode bytes with
  | .error _ => .error (.unreadableConfig path "stream did not contain valid UTF-8")
  | .ok text => if extension? path = some ['j', 's', 'o', 'n'] then ofJson text else ofYaml text

/-- The settings in a file. -/
def ofFile (files : Files) (path : String) : Except Error Config :=
  match files.find path with
  | .file bytes => ofBytes path bytes
  | .missing => .error (.fileNotFound path)
  | .directory => .error (.unreadableConfig path Files.isADirectory)
  | .unreadable reason => .error (.unreadableConfig path reason)

end JsonLines.Config
