/-
JsonLines.Command.Completion — what running a command line comes to.

A request reads its settings, then its input, and only then does what its command says; the first
failure ends it. A completion is what a process leaves behind: its exit code, what it prints, and
for a failed command the failure with its causes.
-/
import JsonLines.Command.Arguments
import JsonLines.Command.Report
import JsonLines.Config.FromFile

namespace JsonLines

/-! ## Running a request -/

namespace Command

/-- The report of a command on the values of its input. -/
def report (files : Files) (v : View) : Command → Except Error Report
  | .describe _ => .ok v.schemaReport
  | .listFields _ field =>
    match v.selectPath none field with
    | .error e => .error e
    | .ok selected => selected.fieldsReport
  | .countRows _ => .ok v.countReport
  | .showValues _ rows field =>
    match v.selectPath rows field with
    | .error e => .error e
    | .ok selected => selected.valuesReport
  | .exportTable _ output rows field compression =>
    match v.selectPath rows field with
    | .error e => .error e
    | .ok selected => selected.exportReport files output compression

end Command

namespace Request

/-- The settings that a request names, or those that need no file. -/
def settings (request : Request) (files : Files) : Except Error Config :=
  match request.config with
  | none => .ok {}
  | some path => Config.ofFile files path

/-- The report of a request. -/
def execute (request : Request) (files : Files) : Except Error Report :=
  match request.settings files with
  | .error e => .error e
  | .ok config =>
    match files.openSource config.reading.mapped request.command.input with
    | .error e => .error e
    | .ok source =>
      match View.load source config with
      | .error e => .error e
      | .ok view => request.command.report files view

end Request

/-! ## What is printed -/

/-- A report in a format. -/
def Report.render (report : Report) : Format → String
  | .text => report.text
  | .json => report.message.compact
  | .pretty => report.message.pretty 0

/-- A text whose lines after the first are indented by `width` spaces. -/
def hang (width : Nat) (text : String) : String :=
  String.ofList (text.toList.flatMap fun c =>
    if c = '\n' then '\n' :: List.replicate width ' ' else [c])

/-- The causes of a failure, outermost first; numbered from zero if there are several. -/
def Error.causes (e : Error) : String :=
  match e.source? with
  | none => "    " ++ hang 4 e.message ++ "\n"
  | some source => "    0: " ++ hang 7 e.message ++ "\n    1: " ++ hang 7 source ++ "\n"

/-- What a failed command says. -/
def Request.failure (request : Request) (e : Error) : String :=
  "Error: command failed: " ++ request.command.diagnostic ++ "\n\nCaused by:\n" ++ e.causes

namespace Arguments

/-- The program and its version. -/
def versionLine : String := "jsonl-dataset 0.1.0"

/-- How the program is called. -/
def usage : String :=
  "Usage: jsonl-dataset [--config FILE] [--format text|json|pretty] [--verbose] COMMAND\n\n" ++
  "  schema INPUT                                 print the type of all rows\n" ++
  "  fields INPUT [--field PATH]                  list field names and their types\n" ++
  "  count INPUT                                  count rows\n" ++
  "  show INPUT [--rows LIST] [--field PATH]      print values\n" ++
  "  export INPUT --output FILE [--rows LIST] [--field PATH] [--compression NAME]"

/-- What is wrong with a command line. -/
def Refusal.message : Refusal → String
  | .help | .nothingAsked => usage
  | .version => versionLine
  | .missingCommand => "a command is required"
  | .missingArgument => "a required argument is missing"
  | .unknownArgument => "an argument is not expected here"
  | .unknownCommand => "the command is not known"
  | .badValue => "an option has no value, or one that is not fit for it"
  | .repeatedArgument => "an argument is given more than once"
  | .unwantedValue => "an option has a value that it does not take"

/-- The refusal is an answer to what was asked. -/
def Refusal.isAnswer : Refusal → Bool
  | .help | .version => true
  | _ => false

end Arguments

/-! ## Completions -/

/-- What a process leaves behind. -/
structure Completion where
  /-- Zero for success, one for a failed command, two for words that make no request. -/
  exit : Nat
  /-- What it prints. -/
  output : String
  /-- The failure of its command. -/
  failure : Option String := none
  /-- The file that it writes. -/
  export? : Option Export := none
deriving Repr

namespace Completion

/-- The completion of words that make no request. -/
def ofRefusal (refusal : Arguments.Refusal) : Completion :=
  if refusal.isAnswer then { exit := 0, output := refusal.message ++ "\n" }
  else { exit := 2, output := "" }

/-- The completion of a request. -/
def ofRequest (request : Request) (files : Files) : Completion :=
  match request.execute files with
  | .error e => { exit := 1, output := "", failure := some (request.failure e) }
  | .ok report =>
    { exit := 0, output := report.render request.format ++ "\n", export? := report.export? }

/-- The completion of the words of a command line. -/
def ofWords (words : List String) (files : Files) : Completion :=
  match Arguments.parse words with
  | .error refusal => ofRefusal refusal
  | .ok request => ofRequest request files

end Completion

end JsonLines
