import Hashmark.Path

/-!
# Arguments of the command line

A command line is a command with its operands, and options. Some options go with every command and
may stand in front of it too; what stands behind the command counts then. An option with a value is
written `--name value` or `--name=value`; behind `--` there are only operands.
-/

namespace Hashmark.CommandLine

/-- How an option is used. -/
inductive OptionKind where
  /-- Without a value, once. -/
  | flag
  /-- With a value, once. -/
  | single
  /-- With a value, any number of times. -/
  | repeatable
  deriving DecidableEq, Repr

/-- An option. -/
structure OptionSpec where
  long : String
  short : Option Char
  kind : OptionKind
  /-- How messages call the value. -/
  valueName : String
  deriving Repr

/-- What may stand in a command line, in front of a command or behind one. -/
structure Level where
  options : List OptionSpec
  /-- The operands, all of which are needed. -/
  operands : List String
  /-- The commands, one of which is needed if there are any. -/
  commands : List String
  /-- Whether the version can be asked for. -/
  hasVersion : Bool
  deriving Repr

/-- What is wrong with a command line. -/
inductive UsageError where
  | unknownArgument (text : String)
  | missingValue (option : OptionSpec)
  | superfluousValue (option : String)
  | repeatedOption (option : String)
  | missingOperand (name : String)
  | unknownCommand (name : String)
  | missingCommand
  deriving Repr

/-- The message for an error. -/
def UsageError.message : UsageError → String
  | .unknownArgument text => s!"unexpected argument '{text}' found"
  | .missingValue option =>
    s!"a value is required for '--{option.long} <{option.valueName}>' but none was supplied"
  | .superfluousValue option => s!"unexpected value for '--{option}' found; no more were expected"
  | .repeatedOption option => s!"the argument '--{option}' cannot be used multiple times"
  | .missingOperand name => s!"the following required arguments were not provided: <{name}>"
  | .unknownCommand name => s!"unrecognized subcommand '{name}'"
  | .missingCommand => "a subcommand is required but one was not provided"

/-- The options and operands that were found, in order. A flag has an empty value. -/
structure Found where
  options : List (String × String)
  operands : List String
  deriving Repr

namespace Found

/-- The values of an option, in order. -/
def values (f : Found) (option : String) : List String :=
  (f.options.filter (·.1 = option)).map (·.2)

/-- Whether an option was given. -/
def has (f : Found) (option : String) : Bool :=
  f.options.any (·.1 = option)

/-- Adds an option, unless it was given and may be given once only. -/
def add (f : Found) (option : OptionSpec) (value : String) : Except UsageError Found :=
  if option.kind ≠ .repeatable && f.has option.long then .error (.repeatedOption option.long)
  else .ok { f with options := f.options ++ [(option.long, value)] }

end Found

/-- How reading one level ends. -/
inductive Reading where
  | finished (found : Found)
  /-- A command, and the arguments behind it. -/
  | command (found : Found) (name : String) (rest : List String)
  | help
  | version

/-- The name and the value of an argument such as `name=value`. -/
def splitValue (cs : List Char) : List Char × Option (List Char) :=
  match cs.dropWhile (· ≠ '=') with
  | [] => (cs, none)
  | _ :: value => (cs.takeWhile (· ≠ '='), some value)

/-- Whether an argument is read as an option. -/
def looksLikeOption (arg : String) : Bool :=
  match arg.toList with
  | ['-'] => false
  | '-' :: _ => true
  | _ => false

/-- What a group of options of one letter does. -/
inductive ShortReading where
  | found (found : Found)
  | help
  | version

/-- Reads the letters of an argument such as `-v`. -/
def readShort (level : Level) (found : Found) : List Char → Except UsageError ShortReading
  | [] => .ok (.found found)
  | c :: cs =>
    if c = 'h' then .ok .help
    else if c = 'V' && level.hasVersion then .ok .version
    else
      match level.options.find? (·.short = some c) with
      | some option => do
        let found ← found.add option ""
        readShort level found cs
      | none => .error (.unknownArgument ("-" ++ String.singleton c))

/-- Reads the arguments of a level. -/
def readLevel (level : Level) (found : Found) : List String → Except UsageError Reading
  | [] => .ok (.finished found)
  | arg :: rest =>
    match arg.toList with
    | ['-', '-'] => .ok (.finished { found with operands := found.operands ++ rest })
    | '-' :: '-' :: cs =>
      let (name, value) := splitValue cs
      let name := String.ofList name
      if name = "help" || (name = "version" && level.hasVersion) then
        if value.isSome then .error (.superfluousValue name)
        else .ok (if name = "help" then .help else .version)
      else
        match level.options.find? (·.long = name) with
        | none => .error (.unknownArgument ("--" ++ name))
        | some option =>
          match option.kind, value, rest with
          | .flag, some _, _ => .error (.superfluousValue name)
          | .flag, none, rest => do
            let found ← found.add option ""
            readLevel level found rest
          | _, some value, rest => do
            let found ← found.add option (String.ofList value)
            readLevel level found rest
          | _, none, [] => .error (.missingValue option)
          | _, none, value :: rest =>
            if looksLikeOption value then .error (.missingValue option)
            else do
              let found ← found.add option value
              readLevel level found rest
    | '-' :: c :: cs => do
      match ← readShort level found (c :: cs) with
      | .found found => readLevel level found rest
      | .help => pure .help
      | .version => pure .version
    | _ =>
      if level.commands.isEmpty then
        readLevel level { found with operands := found.operands ++ [arg] } rest
      else .ok (.command found arg rest)

/-! ### The commands -/

/-- What is to be done. -/
inductive Command where
  /-- Compile every template below a directory. -/
  | compileAll (root : Path) (force : Bool)
  | compile (name : String) (force : Bool)
  /-- Write the output of a template for the data in a file. -/
  | render (name : String) (data : Option Path)
  /-- Remove all artifacts. -/
  | clear
  deriving Repr

/-- What is said for every command. -/
structure Settings where
  config : Option Path
  roots : List Path
  cacheDirectory : Option Path
  skipsOptimizer : Bool
  verbose : Bool
  deriving Repr

/-- What a command line asks for. -/
inductive Request where
  | run (settings : Settings) (command : Command)
  /-- The help for a command, or for the program. -/
  | help (command : Option String)
  | version
  deriving Repr

/-- The options that go with every command. -/
def globalOptions : List OptionSpec :=
  [⟨"config", none, .single, "CONFIG"⟩, ⟨"root", none, .repeatable, "ROOTS"⟩,
   ⟨"cache-dir", none, .single, "CACHE_DIR"⟩, ⟨"no-optimize", none, .flag, ""⟩,
   ⟨"verbose", some 'v', .flag, ""⟩]

/-- The commands. -/
def commandNames : List String :=
  ["compile-all", "compile", "render", "clear"]

/-- What may stand in front of a command. -/
def topLevel : Level :=
  ⟨globalOptions, [], commandNames, true⟩

/-- What may stand behind a command. -/
def levelOf (command : String) : Level :=
  let force : OptionSpec := ⟨"force", none, .flag, ""⟩
  match command with
  | "compile-all" => ⟨force :: globalOptions, ["ROOT"], [], false⟩
  | "compile" => ⟨force :: globalOptions, ["NAME"], [], false⟩
  | "render" => ⟨⟨"data", none, .single, "DATA"⟩ :: globalOptions, ["NAME"], [], false⟩
  | _ => ⟨globalOptions, [], [], false⟩

/-- The values of a global option: those behind the command, or else those in front of it. -/
def globalValues (front behind : Found) (option : String) : List String :=
  if behind.has option then behind.values option else front.values option

/-- The settings from the options in front of a command and behind it. -/
def settingsOf (front behind : Found) : Settings :=
  let values := globalValues front behind
  { config := (values "config").head?.map Path.mk
    roots := (values "root").map Path.mk
    cacheDirectory := (values "cache-dir").head?.map Path.mk
    skipsOptimizer := !(values "no-optimize").isEmpty
    verbose := !(values "verbose").isEmpty }

/-- The command of a name with what was found behind it. -/
def commandOf (name : String) (found : Found) : Except UsageError Command :=
  let force := found.has "force"
  match name, found.operands with
  | "compile-all", [root] => .ok (.compileAll ⟨root⟩ force)
  | "compile", [template] => .ok (.compile template force)
  | "render", [template] => .ok (.render template ((found.values "data").head?.map Path.mk))
  | "clear", [] => .ok .clear
  | name, operands =>
    match operands.drop (levelOf name).operands.length with
    | extra :: _ => .error (.unknownArgument extra)
    | [] => .error (.missingOperand ((levelOf name).operands.head?.getD ""))

/-- The help that `help` with some words asks for. -/
def helpRequest : List String → Except UsageError Request
  | [] => .ok (.help none)
  | [command] =>
    if commandNames.contains command || command = "help" then .ok (.help (some command))
    else .error (.unknownCommand command)
  | _ :: extra :: _ => .error (.unknownCommand extra)

/-- Reads a command line. -/
def parse (args : List String) : Except UsageError Request := do
  match ← readLevel topLevel ⟨[], []⟩ args with
  | .help => pure (.help none)
  | .version => pure .version
  | .finished found =>
    match found.operands with
    | extra :: _ => throw (.unknownCommand extra)
    | [] => throw .missingCommand
  | .command front name rest =>
    if name = "help" then helpRequest rest
    else if !commandNames.contains name then throw (.unknownCommand name)
    else
      match ← readLevel (levelOf name) ⟨[], []⟩ rest with
      | .finished behind =>
        let command ← commandOf name behind
        pure (.run (settingsOf front behind) command)
      | _ => pure (.help (some name))

end Hashmark.CommandLine
