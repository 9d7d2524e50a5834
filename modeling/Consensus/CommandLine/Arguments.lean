import Consensus.Basic

/-!
# Arguments of the command line

There is one command, `local`, with its options. An option that takes a value takes it from the
same argument, after an equals sign, or else from the next one, which must not begin with a
dash. The letter `-o` stands for `--output`, and its value may follow it directly. No option may
be given twice. After two dashes alone no options follow, and nothing else may either.

A value from an argument of its own is looked at only once the next option or the end of the
arguments is reached: an unknown argument in between is reported first.
-/

namespace Consensus.CommandLine

/-- How the states of the nodes are shown. -/
inductive OutputFormat where
  | table
  | json
deriving DecidableEq

/-- The format of the given name. -/
def OutputFormat.ofName? : String → Option OutputFormat
  | "table" => some .table
  | "json" => some .json
  | _ => none

/-- What the command `local` is to do. -/
structure LocalOptions where
  /-- The number of nodes. -/
  nodes : Nat := 3
  /-- The number of commands to submit. -/
  commands : Nat := 10
  /-- The folder to keep the nodes' files in; in memory without one. -/
  dataDir : Option String := none
  /-- The log length from which on a node compacts. -/
  compactionThreshold : Nat := 1000
  /-- Whether the nodes go on after the report. -/
  keepRunning : Bool := false
  output : OutputFormat := .table
deriving DecidableEq

/-- Why there is nothing to run. -/
inductive UsageError where
  | helpWanted
  | versionWanted
  /-- No command is named, and nothing else is asked for. -/
  | noCommand
  | unknownCommand
  | unknownArgument
  /-- An option comes again. -/
  | repeated
  /-- A value is missing or not one of those allowed. -/
  | badValue
  /-- A value is not a number in range. -/
  | badNumber
  /-- A value for an option that takes none. -/
  | unneededValue
deriving DecidableEq

/-- What an option sets. -/
inductive OptionName where
  | nodes
  | commands
  | dataDir
  | compactionThreshold
  | keepRunning
  | output
deriving DecidableEq

/-- What the name after two dashes stands for. -/
inductive LongName where
  | option (name : OptionName)
  | help
  | version

/-- The name after two dashes, among those of the command `local`. -/
def LongName.ofText? : List Char → Option LongName
  | text =>
    match String.ofList text with
    | "nodes" => some (.option .nodes)
    | "commands" => some (.option .commands)
    | "data-dir" => some (.option .dataDir)
    | "compaction-threshold" => some (.option .compactionThreshold)
    | "keep-running" => some (.option .keepRunning)
    | "output" => some (.option .output)
    | "help" => some .help
    | "version" => some .version
    | _ => none

/-- The form of an argument. -/
inductive Shape where
  /-- Two dashes alone. -/
  | escape
  /-- Two dashes and a name, perhaps with an equals sign and a value. -/
  | long (name : List Char) (value : Option String)
  /-- One dash, a letter and what follows it. -/
  | short (letter : Char) (rest : List Char)
  /-- Any other text; a dash alone is one. -/
  | plain

/-- The text before the first equals sign, and the text after it if there is one. -/
def splitEquals (text : List Char) : List Char × Option String :=
  match text.dropWhile (· ≠ '=') with
  | [] => (text, none)
  | _ :: value => (text.takeWhile (· ≠ '='), some (String.ofList value))

/-- The form that an argument has. -/
def Shape.ofArgument (arg : String) : Shape :=
  match arg.toList with
  | ['-', '-'] => .escape
  | '-' :: '-' :: text => .long (splitEquals text).1 (splitEquals text).2
  | '-' :: letter :: rest => .short letter rest
  | _ => .plain

/-- The text after a plus sign at its front, or all of it. -/
def withoutPlus : List Char → List Char
  | '+' :: text => text
  | text => text

/-- The value of decimal digits. -/
def digitsValue (digits : List Char) : Nat :=
  digits.foldl (fun n d => 10 * n + (d.toNat - '0'.toNat)) 0

/-- The number that the digits spell, a plus sign before them allowed, if it fits 64 bits. -/
def readNumber? (text : String) : Option Nat :=
  let digits := withoutPlus text.toList
  if digits ≠ [] ∧ digits.all Char.isDigit ∧ digitsValue digits < wordBound then
    some (digitsValue digits)
  else none

/-- A number, or the reason why it is none. -/
def readNumber (text : String) : Except UsageError Nat :=
  match readNumber? text with
  | some n => .ok n
  | none => .error .badNumber

/-- The options with one of them set from its value. -/
def LocalOptions.set (options : LocalOptions) (name : OptionName) (value : String) :
    Except UsageError LocalOptions :=
  match name with
  | .nodes => do return { options with nodes := ← readNumber value }
  | .commands => do return { options with commands := ← readNumber value }
  | .compactionThreshold => do return { options with compactionThreshold := ← readNumber value }
  | .dataDir =>
    if value = "" then .error .badValue else .ok { options with dataDir := some value }
  | .output =>
    match OutputFormat.ofName? value with
    | some format => .ok { options with output := format }
    | none => .error .badValue
  | .keepRunning => .ok { options with keepRunning := true }

/-- How far the options have been read. -/
structure Reading where
  options : LocalOptions := {}
  /-- The options that have been set. -/
  given : List OptionName := []
  /-- An option that takes its value from an argument of its own, and that value once it is
  there. -/
  awaiting : Option (OptionName × Option String) := none

namespace Reading

/-- Set an option, for the first time. -/
def give (r : Reading) (name : OptionName) (value : String) : Except UsageError Reading :=
  if name ∈ r.given then .error .repeated
  else do return { r with options := ← r.options.set name value, given := name :: r.given }

/-- Set the option whose value was awaited. -/
def resolve (r : Reading) : Except UsageError Reading :=
  match r.awaiting with
  | none => .ok r
  | some (_, none) => .error .badValue
  | some (name, some value) => { r with awaiting := none }.give name value

/-- Meet an option, with the value in its argument if there is one. -/
def meet (r : Reading) (name : OptionName) (value : Option String) : Except UsageError Reading :=
  match name, value with
  | .keepRunning, some _ => .error .unneededValue
  | .keepRunning, none => do (← r.resolve).give .keepRunning ""
  | name, some value => do (← r.resolve).give name value
  | name, none => do return { ← r.resolve with awaiting := some (name, none) }

/-- Meet a request for something other than a run. -/
def meetRequest (r : Reading) (value : Option String) (wanted : UsageError) :
    Except UsageError Reading :=
  match value with
  | some _ => .error .unneededValue
  | none => do let _ ← r.resolve; .error wanted

/-- Meet one argument. -/
def meetArgument (r : Reading) (arg : String) : Shape → Except UsageError Reading
  | .long name value =>
    match LongName.ofText? name with
    | some (.option name) => r.meet name value
    | some .help => r.meetRequest value .helpWanted
    | some .version => r.meetRequest value .versionWanted
    | none => .error .unknownArgument
  | .short 'o' [] => r.meet .output none
  | .short 'o' ('=' :: value) => r.meet .output (some (String.ofList value))
  | .short 'o' value => r.meet .output (some (String.ofList value))
  | .short 'h' _ => r.meetRequest none .helpWanted
  | .short 'V' _ => r.meetRequest none .versionWanted
  | .short _ _ => .error .unknownArgument
  | .escape | .plain =>
    match r.awaiting with
    | some (name, none) => .ok { r with awaiting := some (name, some arg) }
    | _ => .error .unknownArgument

/-- Read arguments to their end. -/
def readAll (r : Reading) : List String → Except UsageError LocalOptions
  | [] => do return (← r.resolve).options
  | arg :: rest =>
    match Shape.ofArgument arg with
    | .escape => if rest = [] then do return (← r.resolve).options else .error .unknownArgument
    | shape => do (← r.meetArgument arg shape).readAll rest

end Reading

/-- What a request for help is about, if it is about anything there is. -/
def helpOn : List String → UsageError
  | [] | ["local"] | ["help"] => .helpWanted
  | _ => .unknownCommand

/-- Read the arguments. -/
def readArguments : List String → Except UsageError LocalOptions
  | [] => .error .noCommand
  | "local" :: rest => Reading.readAll {} rest
  | "help" :: topics => .error (helpOn topics)
  | arg :: rest => .error <|
    match Shape.ofArgument arg with
    | .escape =>
      match rest with
      | [] => .noCommand
      | next :: _ => if next = "local" ∨ next = "help" then .unknownArgument else .unknownCommand
    | .long name value =>
      match LongName.ofText? name with
      | some .help => if value.isSome then .unneededValue else .helpWanted
      | some .version => if value.isSome then .unneededValue else .versionWanted
      | _ => .unknownArgument
    | .short 'h' _ => .helpWanted
    | .short 'V' _ => .versionWanted
    | .short _ _ => .unknownArgument
    | .plain => .unknownCommand

end Consensus.CommandLine
