/-!
# Help texts

What the program says about itself.
-/

namespace Hashmark.CommandLine

/-- The line with the version. -/
def versionLine : String := "ludoc 0.1.0\n"

/-- The lines on the options that go with every command. -/
def globalOptionLines : List String :=
  ["      --root <ROOTS>           Template root, searched after the configured ones (repeatable)",
   "      --cache-dir <CACHE_DIR>  " ++
     "Store artifacts in this directory instead of the configured backend",
   "      --no-optimize            Skip the optimizer",
   "  -v, --verbose                Log cache hits and misses",
   "  -h, --help                   Print help"]

/-- The line on the option for the configuration file. -/
def configLine : String :=
  "      --config <CONFIG>        JSON engine config"

/-- The help for the program. -/
def programHelp : List String :=
  ["Template compilation engine: #[expr] markers, control directives and layout inheritance, " ++
     "compiled once and cached by source mtime",
   "",
   "Usage: ludoc [OPTIONS] <COMMAND>",
   "",
   "Commands:",
   "  compile-all  Compile every template under a directory",
   "  compile      Compile one template by logical name or path",
   "  render       Render a template to stdout",
   "  clear        Remove every cached artifact",
   "  help         Print this message or the help of the given subcommand(s)",
   "",
   "Options:"]
    ++ configLine :: globalOptionLines ++ ["  -V, --version                Print version"]

/-- The help for a command: what it does, its operand and the lines on its own options. -/
def commandHelp (name summary : String) (operand : Option String) (own : List String) :
    List String :=
  let usage := match operand with
    | some o => s!"Usage: ludoc {name} [OPTIONS] <{o}>"
    | none => s!"Usage: ludoc {name} [OPTIONS]"
  let operands := match operand with
    | some o => ["", "Arguments:", s!"  <{o}>  "]
    | none => []
  [summary, "", usage] ++ operands ++ ["", "Options:"] ++ configLine :: own ++ globalOptionLines

/-- The help for a command, or for the program. -/
def helpText (command : Option String) : String :=
  let lines := match command with
    | some "compile-all" =>
      commandHelp "compile-all" "Compile every template under a directory" (some "ROOT")
        ["      --force                  Recompile even when a fresh artifact is cached"]
    | some "compile" =>
      commandHelp "compile" "Compile one template by logical name or path" (some "NAME")
        ["      --force                  "]
    | some "render" =>
      commandHelp "render" "Render a template to stdout" (some "NAME")
        ["      --data <DATA>            JSON object used as the data context"]
    | some "clear" => commandHelp "clear" "Remove every cached artifact" none []
    | some "help" => ["Print this message or the help of the given subcommand(s)"]
    | _ => programHelp
  String.join (lines.map (· ++ "\n"))

end Hashmark.CommandLine
