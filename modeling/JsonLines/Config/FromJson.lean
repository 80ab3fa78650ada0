/-
JsonLines.Config.FromJson — settings written as JSON.

The settings are a record of records; what is left out keeps its default.
-/
import JsonLines.Config.Settings
import JsonLines.Json.Typed

namespace JsonLines.Config

/-- How the file is read. -/
def readingFields : List (Json.Typed.FieldReader Reading) :=
  [{ name := "mmap"
     read := fun r c => do
      let (mapped, c) ← Json.Typed.boolean c
      return ({ r with mapped }, c) },
   { name := "skip_blank_lines"
     read := fun r c => do
      let (skipBlankLines, c) ← Json.Typed.boolean c
      return ({ r with skipBlankLines }, c) }]

/-- How far the dataset may grow. -/
def limitsFields : List (Json.Typed.FieldReader Limits) :=
  [{ name := "max_rows"
     read := fun l c => do
      let (maxRows, c) ← Json.Typed.nullable Json.Typed.natural c
      return ({ l with maxRows }, c) },
   { name := "max_depth"
     read := fun l c => do
      let (maxDepth, c) ← Json.Typed.natural c
      return ({ l with maxDepth }, c) }]

/-- The sections of the settings. -/
def sections : List (Json.Typed.FieldReader Config) :=
  [{ name := "source"
     read := fun config c => do
      let (reading, c) ← Json.Typed.record "SourceConfig" readingFields {} c
      return ({ config with reading }, c) },
   { name := "limits"
     read := fun config c => do
      let (limits, c) ← Json.Typed.record "LimitsConfig" limitsFields {} c
      return ({ config with limits }, c) },
   { name := "log_level"
     read := fun config c => do
      let (logLevel, c) ← Json.Typed.oneOf (LogLevel.all.map fun level => (level.name, level)) c
      return ({ config with logLevel }, c) }]

/-- The settings that a JSON text writes. -/
def ofJson (text : List Char) : Except Error Config :=
  match Json.Typed.parse (Json.Typed.record "DatasetConfig" sections {}) text with
  | .error fault =>
    .error (.malformedJson (fault.locate (String.ofList text).toUTF8.data.toList 0))
  | .ok config =>
    match config.validate with
    | .error e => .error e
    | .ok () => .ok config

end JsonLines.Config
