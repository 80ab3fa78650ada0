/-
JsonLines.Source.Files — the files that a program can see.

`Files` says what is found at a path and why a path cannot be written. `Files.ofList` is a working
directory that holds some files and nothing else.
-/
import JsonLines.Error
import JsonLines.Source.ByteSource

namespace JsonLines

/-- What is found at a path. -/
inductive Found where
  | file (bytes : ByteArray)
  | directory
  | missing
  | unreadable (reason : String)

/-- What is found at each path, and why a file cannot be created there. -/
structure Files where
  find : String → Found
  whyNotCreated : String → Option String

namespace Files

/-- The message of a system error. -/
def noSuchFile : String := "No such file or directory (os error 2)"

/-- The message of a system error. -/
def notADirectory : String := "Not a directory (os error 20)"

/-- The message of a system error. -/
def isADirectory : String := "Is a directory (os error 21)"

/-- The message of a system error. -/
def noSuchDevice : String := "No such device (os error 19)"

/-- The message about a path that no file can have. -/
def nulInPath : String := "file name contained an unexpected NUL byte"

/-- The parts of a text between separators. -/
def splitOn (separator : Char) : List Char → List (List Char)
  | [] => [[]]
  | c :: cs =>
    match splitOn separator cs with
    | [] => [[c]]
    | part :: parts => if c = separator then [] :: part :: parts else (c :: part) :: parts

/-- The names on a path that starts in the working directory, none for any other path. -/
def names (path : String) : List (List Char) :=
  (splitOn '/' path.toList).filter fun name => name != [] && name != ['.']

/-- What is found at a path when the working directory holds some files. -/
def findIn (files : List (String × ByteArray)) (path : String) : Found :=
  if path.toList.contains '\x00' then .unreadable nulInPath
  else if path.isEmpty || path.toList.head? = some '/' then .missing
  else
    match files.find? fun (file, _) => names file = names path with
    | some (_, bytes) =>
      if path.toList.getLast? = some '/' then .unreadable notADirectory else .file bytes
    | none =>
      if files.any fun (file, _) => (names path).isPrefixOf (names file) then .directory
      else if files.any fun (file, _) => (names file).isPrefixOf (names path) then
        .unreadable notADirectory
      else if names path = [] then .directory
      else .missing

/-- Why a file cannot be created at a path when the working directory holds some files: the
directory it is to be in must be there. -/
def whyNotCreatedIn (files : List (String × ByteArray)) (path : String) : Option String :=
  match findIn files path with
  | .file _ => none
  | .directory => some isADirectory
  | .unreadable reason => some reason
  | .missing =>
    let folder := (names path).dropLast
    if path.isEmpty || path.toList.head? = some '/' then some noSuchFile
    else if path.toList.getLast? = some '/' then some isADirectory
    else if folder = [] || files.any (fun (file, _) => folder.isPrefixOf (names file)) then none
    else some noSuchFile

/-- A working directory that holds some files and nothing else. -/
def ofList (files : List (String × ByteArray)) : Files :=
  { find := findIn files, whyNotCreated := whyNotCreatedIn files }

/-- The source of a file, mapped or read. -/
def openSource (files : Files) (mapped : Bool) (path : String) : Except Error ByteSource :=
  match files.find path with
  | .file bytes => .ok (if mapped then .ofMappedFile path bytes else .ofReadFile path bytes)
  | .missing => .error (.fileNotFound path)
  | .directory => .error (.unreadableFile (if mapped then noSuchDevice else isADirectory))
  | .unreadable reason => .error (.unreadableFile reason)

/-- A new file can be created at a path. -/
def checkCreatable (files : Files) (path : String) : Except Error Unit :=
  match files.whyNotCreated path with
  | none => .ok ()
  | some reason => .error (.uncreatableFile path reason)

end Files

end JsonLines
