/-
JsonLines.Config.Settings — how a dataset is read.

Every setting has a default: the file is mapped, blank lines are skipped, the number of rows is
limited by memory alone, and values nest at most 128 deep. `Config.validate` refuses limits of zero.
-/
import JsonLines.Error

namespace JsonLines

/-- How much a command line reports while it works. -/
inductive LogLevel where
  | trace
  | debug
  | info
  | warn
  | error
deriving DecidableEq, Repr, Inhabited

namespace LogLevel

/-- The levels, most talkative first. -/
def all : List LogLevel := [.trace, .debug, .info, .warn, .error]

/-- The name of a level. -/
def name : LogLevel → String
  | .trace => "trace"
  | .debug => "debug"
  | .info => "info"
  | .warn => "warn"
  | .error => "error"

/-- The level of a name. -/
def ofName? (name : String) : Option LogLevel := all.find? (·.name = name)

end LogLevel

/-- How the input file is read. -/
structure Config.Reading where
  mapped : Bool := true
  skipBlankLines : Bool := true
deriving DecidableEq, Repr, Inhabited

/-- How far a dataset may grow. -/
structure Config.Limits where
  maxRows : Option Nat := none
  maxDepth : Nat := 128
deriving DecidableEq, Repr, Inhabited

/-- How a dataset is read. -/
structure Config where
  reading : Config.Reading := {}
  limits : Config.Limits := {}
  logLevel : LogLevel := .info
deriving DecidableEq, Repr, Inhabited

/-- Limits must leave room for something. -/
def Config.validate (config : Config) : Except Error Unit :=
  if config.limits.maxRows = some 0 then .error .zeroRowLimit
  else if config.limits.maxDepth = 0 then .error .zeroDepthLimit
  else .ok ()

end JsonLines
