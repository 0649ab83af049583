import Inclusion.Command

/-!
# The command line

Arguments are taken from left to right. Options may stand before or after the name of the command;
of an option given in both places the one after the name counts, and in one place it may stand once.
The value of an option is checked when the next option or operand comes, or at the end; those before
the name are checked after everything behind it. `--` ends the options.

* `Argument.ofText_dashes`: two dashes alone end the options.
* `parse_nil`: no argument at all asks for help.
-/
namespace Inclusion.CommandLine

/-- Why a command line starts no command. -/
inductive Refusal
  /-- An option lacks its value, or has an empty one where it must not be. -/
  | emptyValue
  | badNumber
  | unknownArgument
  | unknownCommand
  | missingOperand
  /-- An option stands twice in one place. -/
  | repeatedOption
  /-- A switch was given a value. -/
  | needlessValue
  | missingCommand
  /-- Help was asked for. -/
  | help
  | version
  /-- There is nothing on the command line. -/
  | nothing
deriving DecidableEq, Repr

namespace Refusal

def message : Refusal → String
  | emptyValue => "a value is required for an option but none was supplied"
  | badNumber => "an option needs a whole number that fits 64 bits"
  | unknownArgument => "unexpected argument"
  | unknownCommand => "unrecognized subcommand"
  | missingOperand => "a required argument was not provided"
  | repeatedOption => "an option cannot be used multiple times"
  | needlessValue => "a switch takes no value"
  | missingCommand => "a subcommand is required but one was not provided"
  | help | version | nothing => ""

end Refusal

/-- Options that take a value. -/
inductive Flag
  | root
  | manifestFile
  | buildFile
  | settingsFile
  | logFile
  | interval
deriving DecidableEq, Repr

namespace Flag

/-- The options that every command takes. -/
def everywhere : List Flag := [root, manifestFile, buildFile, settingsFile, logFile]

def name : Flag → String
  | root => "root"
  | manifestFile => "manifest-file"
  | buildFile => "build-file"
  | settingsFile => "settings-file"
  | logFile => "log-file"
  | interval => "interval-secs"

def letter? : Flag → Option Char
  | root => some 'r'
  | _ => none

end Flag

/-- A decimal number of at most 64 bits, which may have a plus sign in front. -/
def readNumber? (text : String) : Option Nat :=
  let digits := Text.skipOne (· == '+') text.toList
  let n := digits.foldl (fun n c => n * 10 + (c.toNat - 0x30)) 0
  if digits ≠ [] ∧ digits.all Char.isDigit ∧ n < 1 <<< 64 then some n else none

/-- What is wrong with the value of an option. -/
def Flag.fault? (flag : Flag) (value : String) : Option Refusal :=
  match flag with
  | .root | .logFile => if value = "" then some .emptyValue else none
  | .interval => if (readNumber? value).isNone then some .badNumber else none
  | .manifestFile | .buildFile | .settingsFile => none

/-- What an argument looks like. -/
inductive Argument
  /-- The end of the options. -/
  | dashes
  /-- An option by name, with a value behind an equals sign if there is one. -/
  | long (name : String) (value? : Option String)
  /-- An option by letter, and what is written behind it. -/
  | short (letter : Char) (rest : List Char)
  | word
deriving DecidableEq

def Argument.ofText (text : String) : Argument :=
  match text.toList with
  | '-' :: '-' :: rest =>
    if rest = [] then .dashes
    else
      let name := String.ofList (rest.takeWhile (· != '='))
      match rest.dropWhile (· != '=') with
      | [] => .long name none
      | _ :: value => .long name (some (String.ofList value))
  | '-' :: letter :: rest => .short letter rest
  | _ => .word

/-- What was gathered on one side of the name of the command. -/
structure Gathered where
  values : List (Flag × String) := []
  /-- The last option, whose value has not come yet or is not checked yet. -/
  pending : Option (Flag × Option String) := none
  operand : Option String := none
  /-- Whether the options have ended. -/
  ended : Bool := false

namespace Gathered

/-- Checks the pending option. -/
def settle (g : Gathered) : Except Refusal Gathered :=
  match g.pending with
  | none => .ok g
  | some (_, none) => .error .emptyValue
  | some (flag, some value) =>
    if g.values.any (·.1 == flag) then .error .repeatedOption
    else
      match flag.fault? value with
      | some refusal => .error refusal
      | none => .ok { g with values := g.values ++ [(flag, value)], pending := none }

/-- Takes up an option, with its value if that is attached to it. -/
def option (g : Gathered) (flag : Flag) (value? : Option String) : Except Refusal Gathered :=
  match g.settle with
  | .error refusal => .error refusal
  | .ok g =>
    let g := { g with pending := some (flag, value?) }
    if value?.isSome then g.settle else .ok g

/-- A switch that asks for a text ends the command line. -/
def ask (g : Gathered) (refusal : Refusal) : Except Refusal Gathered :=
  match g.settle with
  | .error earlier => .error earlier
  | .ok _ => .error refusal

/-- Takes up an option by name. -/
def long (flags : List Flag) (versioned : Bool) (g : Gathered) (name : String)
    (value? : Option String) : Except Refusal Gathered :=
  match flags.find? (·.name == name) with
  | some flag => g.option flag value?
  | none =>
    if name = "help" ∨ (versioned ∧ name = "version") then
      if value?.isSome then .error .needlessValue
      else g.ask (if name = "help" then .help else .version)
    else .error .unknownArgument

/-- Takes up an option by letter; what stands behind the letter is its value. -/
def short (flags : List Flag) (versioned : Bool) (g : Gathered) (letter : Char)
    (rest : List Char) : Except Refusal Gathered :=
  match flags.find? (·.letter? == some letter) with
  | some flag =>
    let value := String.ofList (Text.skipOne (· == '=') rest)
    g.option flag (if rest = [] then none else some value)
  | none =>
    if letter = 'h' then g.ask .help
    else if versioned ∧ letter = 'V' then g.ask .version
    else .error .unknownArgument

/-- Takes up an argument that is an option or the value of one; `none` for any other word. -/
def next? (flags : List Flag) (versioned : Bool) (g : Gathered) (text : String) :
    Except Refusal (Option Gathered) :=
  if g.ended then .ok none
  else
    match Argument.ofText text with
    | .dashes => .ok (some { g with ended := true })
    | .long name value? => (g.long flags versioned name value?).map some
    | .short letter rest => (g.short flags versioned letter rest).map some
    | .word =>
      match g.pending with
      | some (flag, none) => .ok (some { g with pending := some (flag, some text) })
      | _ => .ok none

def value? (g : Gathered) (flag : Flag) : Option String := g.values.lookup flag

end Gathered

/-- A command by its name. -/
inductive CommandName
  | init
  | status
  | refresh
  | includeModule
  | excludeModule
  | watch
deriving DecidableEq, Repr

namespace CommandName

def all : List CommandName := [init, status, refresh, includeModule, excludeModule, watch]

def name : CommandName → String
  | init => "init"
  | status => "status"
  | refresh => "refresh"
  | includeModule => "include"
  | excludeModule => "exclude"
  | watch => "watch"

def ofName? (name : String) : Option CommandName := all.find? (·.name == name)

def takesOperand : CommandName → Bool
  | init | includeModule | excludeModule => true
  | status | refresh | watch => false

def flags : CommandName → List Flag
  | watch => .interval :: Flag.everywhere
  | _ => Flag.everywhere

theorem ofName?_name (c : CommandName) : ofName? c.name = some c := by cases c <;> decide

end CommandName

/-- Gathers what stands behind the name of a command. -/
def gatherBehind (name : CommandName) (g : Gathered) : List String → Except Refusal Gathered
  | [] =>
    match g.settle with
    | .error refusal => .error refusal
    | .ok g =>
      if name.takesOperand ∧ g.operand.isNone then .error .missingOperand else .ok g
  | text :: rest =>
    match g.next? name.flags false text with
    | .error refusal => .error refusal
    | .ok (some g) => gatherBehind name g rest
    | .ok none =>
      if name.takesOperand ∧ g.operand.isNone then
        match g.settle with
        | .error refusal => .error refusal
        | .ok g => gatherBehind name { g with operand := some text } rest
      else .error .unknownArgument

def helpName : String := "help"

def isCommandName (name : String) : Bool := name == helpName || (CommandName.ofName? name).isSome

/-- Help on a command, which only its name may follow. -/
def helpOn : List String → Refusal
  | [] => .help
  | [name] => if isCommandName name then .help else .unknownCommand
  | _ => .unknownCommand

/-- Gathers what stands before the name of the command, the command, and what stands behind it. -/
def gather (g : Gathered) : List String → Except Refusal (Gathered × CommandName × Gathered)
  | [] =>
    match g.settle with
    | .error refusal => .error refusal
    | .ok g => .error (if g.values = [] then .nothing else .missingCommand)
  | text :: rest =>
    match g.next? Flag.everywhere true text with
    | .error refusal => .error refusal
    | .ok (some g) => gather g rest
    | .ok none =>
      if g.ended then .error (if isCommandName text then .unknownArgument else .unknownCommand)
      else if text = helpName then .error (helpOn rest)
      else
        match CommandName.ofName? text with
        | none => .error .unknownCommand
        | some name =>
          match gatherBehind name {} rest with
          | .error refusal => .error refusal
          | .ok behind =>
            match g.settle with
            | .error refusal => .error refusal
            | .ok g => .ok (g, name, behind)

/-- What a command line asks for. -/
structure Invocation where
  command : Command
  root : Path
  config : Config
  /-- Where messages are to be kept. -/
  logFile : Option String
deriving Repr

def CommandName.command (name : CommandName) (g : Gathered) : Command :=
  let operand := g.operand.getD ""
  match name with
  | .init => .init operand
  | .status => .status
  | .refresh => .refresh
  | .includeModule => .includeModule operand
  | .excludeModule => .excludeModule operand
  | .watch => .watch (((g.value? .interval).bind readNumber?).getD 2)

/-- What the arguments behind the name of the program ask for. -/
def parse (arguments : List String) : Except Refusal Invocation :=
  match gather {} arguments with
  | .error refusal => .error refusal
  | .ok (before, name, behind) =>
    let value? (flag : Flag) := (behind.value? flag).or (before.value? flag)
    let default : Config := {}
    .ok
      { command := name.command behind
        root := ⟨(value? .root).getD "."⟩
        config :=
          { manifestFile := (value? .manifestFile).getD default.manifestFile
            buildFile := (value? .buildFile).getD default.buildFile
            settingsFile := (value? .settingsFile).getD default.settingsFile }
        logFile := value? .logFile }

theorem Argument.ofText_dashes : Argument.ofText "--" = .dashes := by decide

theorem parse_nil : parse [] = .error .nothing := rfl

end Inclusion.CommandLine
