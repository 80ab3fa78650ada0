/-
JsonLines.Command.Arguments — requests as words of a command line.

Words are read on two levels, before and after the word that names the command. Each level has its
options, with a long and perhaps a short spelling, and its positionals. A value is not settled as
soon as it is read but when the next one begins or the level ends: until then it is pending. So
when two things are wrong with a command line, the one that settles first is reported. Words of the
second level are all read before the last value of the first level settles.
-/
import JsonLines.Command.Request

namespace JsonLines.Arguments

/-- What a word of a command line can set. -/
inductive Setting where
  | config
  | format
  | verbose
  | help
  | version
  | input
  | output
  | rows
  | field
  | compression
deriving DecidableEq, Repr, Inhabited

namespace Setting

/-- The long spelling of an option, after two minus signs. -/
def long : Setting → String
  | .config => "config"
  | .format => "format"
  | .verbose => "verbose"
  | .help => "help"
  | .version => "version"
  | .input => "input"
  | .output => "output"
  | .rows => "rows"
  | .field => "field"
  | .compression => "compression"

/-- The short spelling of an option, after one minus sign. -/
def short? : Setting → Option Char
  | .config => some 'C'
  | .format => some 'f'
  | .verbose => some 'v'
  | .help => some 'h'
  | .version => some 'V'
  | .output => some 'o'
  | _ => none

/-- The option has a value. -/
def takesValue : Setting → Bool
  | .verbose | .help | .version => false
  | _ => true

/-- A value is fit for the setting: formats are known by name, and a path has a character. -/
def accepts (setting : Setting) (value : String) : Bool :=
  match setting with
  | .format => (Format.ofName? value).isSome
  | .config | .input | .output => !value.isEmpty
  | _ => true

end Setting

/-- The words that name what to do. -/
inductive Verb where
  | schema
  | fields
  | count
  | values
  | columnar
  | help
deriving DecidableEq, Repr, Inhabited

namespace Verb

/-- The verbs. -/
def all : List Verb := [.schema, .fields, .count, .values, .columnar, .help]

/-- The word of a verb. -/
def word : Verb → String
  | .schema => "schema"
  | .fields => "fields"
  | .count => "count"
  | .values => "show"
  | .columnar => "export"
  | .help => "help"

/-- The verb of a word. -/
def ofWord? (word : String) : Option Verb := all.find? (·.word = word)

end Verb

/-- Why a command line makes no request. -/
inductive Refusal where
  /-- Help was asked for. -/
  | help
  /-- The version was asked for. -/
  | version
  /-- Nothing was asked for. -/
  | nothingAsked
  /-- There are options and no command. -/
  | missingCommand
  /-- A command lacks a file. -/
  | missingArgument
  /-- An option is not known, or there is a word too many. -/
  | unknownArgument
  /-- A command is not known. -/
  | unknownCommand
  /-- An option lacks its value, or the value is not fit for it. -/
  | badValue
  /-- An option is given twice. -/
  | repeatedArgument
  /-- An option that has no value is given one. -/
  | unwantedValue
deriving DecidableEq, Repr, Inhabited

/-- What can be written on one level of a command line. -/
structure Level where
  options : List Setting
  positionals : List Setting
  verbs : List Verb

namespace Level

/-- The options of every level. -/
def shared : List Setting := [.config, .format, .verbose, .help]

/-- Before the command. -/
def outer : Level := { options := shared ++ [.version], positionals := [], verbs := Verb.all }

/-- After the word of a command. -/
def ofVerb (verb : Verb) : Level :=
  let extra : List Setting := match verb with
    | .fields => [.field]
    | .values => [.rows, .field]
    | .columnar => [.output, .rows, .field, .compression]
    | _ => []
  { options := shared ++ extra, positionals := [.input], verbs := [] }

/-- The option of a long spelling. -/
def long? (level : Level) (name : List Char) : Option Setting :=
  level.options.find? (·.long.toList = name)

/-- The option of a short spelling. -/
def short? (level : Level) (letter : Char) : Option Setting :=
  level.options.find? (·.short? = some letter)

end Level

/-- A word by its shape. -/
inductive Word where
  /-- Two minus signs: no option follows. -/
  | endOfOptions
  /-- Two minus signs and a name, perhaps with a value after an equals sign. -/
  | long (name : List Char) (value : Option (List Char))
  /-- A minus sign and letters, the last of which may be followed by its value. -/
  | short (letters : List Char)
  /-- Anything else. -/
  | plain
deriving DecidableEq, Repr

/-- The shape of a word. -/
def Word.ofChars : List Char → Word
  | ['-', '-'] => .endOfOptions
  | '-' :: '-' :: name =>
    match name.dropWhile (· != '=') with
    | [] => .long name none
    | _ :: value => .long (name.takeWhile (· != '=')) (some value)
  | '-' :: letter :: letters => .short (letter :: letters)
  | _ => .plain

/-- What was read on a level so far. -/
structure Progress where
  /-- The settings that are settled. -/
  given : List (Setting × String) := []
  /-- The last setting, which is not settled, with its value if that was read. -/
  pending : Option (Setting × Option String) := none
  /-- No option follows any more. -/
  closed : Bool := false
  /-- The positionals that are still to come. -/
  positionals : List Setting

namespace Progress

/-- The value of a setting that is settled. -/
def value? (r : Progress) (setting : Setting) : Option String :=
  (r.given.find? fun (other, _) => other = setting).map Prod.snd

/-- An option that was read waits for the next word as its value. -/
def awaitsValue (r : Progress) : Bool :=
  match r.pending with
  | some (_, none) => !r.closed
  | _ => false

/-- One more setting, which must be new and have a fit value. -/
def give (r : Progress) (setting : Setting) (value : String) : Except Refusal Progress :=
  if (r.value? setting).isSome then .error .repeatedArgument
  else if setting.accepts value then .ok { r with given := r.given ++ [(setting, value)] }
  else .error .badValue

/-- The reading with nothing pending. -/
def settle (r : Progress) : Except Refusal Progress :=
  match r.pending with
  | none => .ok r
  | some (_, none) => .error .badValue
  | some (setting, some value) => { r with pending := none }.give setting value

/-- A setting whose value is at hand. -/
def settleWith (r : Progress) (setting : Setting) (value : String) : Except Refusal Progress :=
  match r.settle with
  | .error e => .error e
  | .ok r => r.give setting value

/-- A setting begins; its value is pending, or still to come. -/
def begin (r : Progress) (setting : Setting) (value : Option String) : Except Refusal Progress :=
  match r.settle with
  | .error e => .error e
  | .ok r => .ok { r with pending := some (setting, value) }

/-- An option that has no value. -/
def flag (r : Progress) (setting : Setting) : Except Refusal Progress :=
  match r.settle with
  | .error e => .error e
  | .ok r =>
    match setting with
    | .help => .error .help
    | .version => .error .version
    | _ => r.give setting ""

/-- A long option. -/
def takeLong (r : Progress) (level : Level) (name : List Char) (value : Option (List Char)) :
    Except Refusal Progress :=
  match level.long? name, value with
  | none, _ => .error .unknownArgument
  | some setting, none => if setting.takesValue then r.begin setting none else r.flag setting
  | some setting, some value =>
    if setting.takesValue then r.settleWith setting (String.ofList value)
    else .error .unwantedValue

/-- Short options, one letter after the other; what follows an option that has a value is that
value, perhaps after an equals sign. -/
def takeShort (r : Progress) (level : Level) : List Char → Except Refusal Progress
  | [] => .ok r
  | letter :: letters =>
    match level.short? letter with
    | none => .error .unknownArgument
    | some setting =>
      if setting.takesValue then
        match letters with
        | [] => r.begin setting none
        | '=' :: value => r.settleWith setting (String.ofList value)
        | value => r.settleWith setting (String.ofList value)
      else
        match r.flag setting with
        | .error e => .error e
        | .ok r => r.takeShort level letters

/-- A word that is no option: the next positional, if there is one. -/
def takePositional (r : Progress) (level : Level) (word : String) : Except Refusal Progress :=
  match r.positionals with
  | setting :: positionals => { r with positionals }.begin setting (some word)
  | [] =>
    if level.verbs.isEmpty || (r.closed && level.verbs.any (·.word = word)) then
      .error .unknownArgument
    else .error .unknownCommand

/-- A word that names no command. -/
def take (r : Progress) (level : Level) (word : String) : Except Refusal Progress :=
  if r.closed then r.takePositional level word
  else
    match Word.ofChars word.toList with
    | .endOfOptions => .ok { r with closed := true }
    | .long name value => r.takeLong level name value
    | .short letters => r.takeShort level letters
    | .plain =>
      match r.pending with
      | some (setting, none) => .ok { r with pending := some (setting, some word) }
      | _ => r.takePositional level word

/-- The command that a word names where it stands. -/
def verb? (r : Progress) (level : Level) (word : String) : Option Verb :=
  if r.closed || r.awaitsValue then none else level.verbs.find? (·.word = word)

/-- The words of a level, and the command with its words if there is one. -/
def takeAll (r : Progress) (level : Level) :
    List String → Except Refusal (Progress × Option (Verb × List String))
  | [] => .ok (r, none)
  | word :: words =>
    match r.verb? level word with
    | some verb => .ok (r, some (verb, words))
    | none =>
      match r.take level word with
      | .error e => .error e
      | .ok r => r.takeAll level words

/-- The file of a setting, which must be given. -/
def need (r : Progress) (setting : Setting) : Except Refusal String :=
  match r.value? setting with
  | none => .error .missingArgument
  | some value => .ok value

end Progress

/-- All words of a level, and the command with its words if there is one. -/
def Level.read (level : Level) (words : List String) :
    Except Refusal (Progress × Option (Verb × List String)) :=
  { positionals := level.positionals : Progress }.takeAll level words

/-- The compression of a file when none is asked for. -/
def defaultCompression : String := "snappy"

/-- The command that the settings of its level make. -/
def commandOf (verb : Verb) (r : Progress) : Except Refusal Command :=
  match r.need .input with
  | .error e => .error e
  | .ok input =>
    match verb with
    | .schema => .ok (.describe input)
    | .fields => .ok (.listFields input (r.value? .field))
    | .count => .ok (.countRows input)
    | .values => .ok (.showValues input (r.value? .rows) (r.value? .field))
    | .columnar =>
      match r.need .output with
      | .error e => .error e
      | .ok output =>
        .ok (.exportTable input output (r.value? .rows) (r.value? .field)
          ((r.value? .compression).getD defaultCompression))
    | .help => .error .help

/-- A command with the settings that either level gives; those after the command count first. -/
def make (outer inner : Progress) (command : Command) : Request :=
  let value? (setting : Setting) : Option String := (inner.value? setting).or (outer.value? setting)
  { config := value? .config
    format := ((value? .format).bind Format.ofName?).getD .text
    verbose := (value? .verbose).isSome
    command }

/-- The request after the word of a command. -/
def parseCommand (outer : Progress) (verb : Verb) (words : List String) : Except Refusal Request :=
  match (Level.ofVerb verb).read words with
  | .error e => .error e
  | .ok (inner, _) =>
    match inner.settle with
    | .error e => .error e
    | .ok inner =>
      match commandOf verb inner with
      | .error e => .error e
      | .ok command =>
        match outer.settle with
        | .error e => .error e
        | .ok outer => .ok (make outer inner command)

/-- What help was asked about: the program, or one command. -/
def parseHelp : List String → Refusal
  | [] => .help
  | [word] => if (Verb.ofWord? word).isSome then .help else .unknownCommand
  | _ => .unknownCommand

/-- The request that the words of a command line make. -/
def parse (words : List String) : Except Refusal Request :=
  match Level.outer.read words with
  | .error e => .error e
  | .ok (_, some (.help, words)) => .error (parseHelp words)
  | .ok (outer, some (verb, words)) => parseCommand outer verb words
  | .ok (outer, none) =>
    match outer.settle with
    | .error e => .error e
    | .ok outer => .error (if outer.given.isEmpty then .nothingAsked else .missingCommand)

end JsonLines.Arguments
