import Hashmark.Callable.Builtin
import Hashmark.CommandLine.Arguments
import Hashmark.CommandLine.Help
import Hashmark.Site

/-!
# Running a command

What a command line does to a disk, and what it writes. Messages go to the error output, all else to
the output. The exit code is 2 for a command line that cannot be read and 1 for any other failure.
-/

namespace Hashmark.CommandLine

/-- What a run leaves behind. -/
structure Outcome where
  exitCode : Nat
  output : String
  errors : String
  disk : Disk

/-- A run that failed with a message. -/
def failed (message : String) (disk : Disk) : Outcome :=
  ⟨1, "", s!"Error: {message}\n", disk⟩

/-- The language of the program: no registered directives, and the built-in callables. -/
def language : Language :=
  ⟨[], Callables.builtin⟩

/-- The configuration of a run. -/
def configOf (settings : Settings) (command : Command) (disk : Disk) :
    Except ConfigError Config := do
  let config ← match settings.config with
    | some path => Config.load disk path
    | none => pure Config.default
  let roots := config.roots ++ settings.roots
  let roots := match command with
    | .compileAll root _ => if roots.isEmpty then [root] else roots
    | _ => roots
  pure
    { config with
      roots := roots
      cache := match settings.cacheDirectory with
        | some path => .directory path
        | none => config.cache
      optimizes := config.optimizes && !settings.skipsOptimizer }

/-- The report on the templates below a directory. -/
def reportLines (r : SiteReport) : String :=
  let lines (word : String) (paths : List Path) : List String :=
    paths.map fun p => word ++ p.text ++ "\n"
  let counts := s!"{r.compiled.length} compiled, {r.cached.length} fresh, " ++
    s!"{r.failed.length} failed ({r.total} total)\n"
  String.join (lines "compiled  " r.compiled ++ lines "fresh     " r.cached ++ [counts])

/-- The messages of the templates that failed. -/
def failureLines (r : SiteReport) : String :=
  String.join (r.failed.map fun (p, e) => s!"failed    {p.text}\n{e.message}\n")

/-- The line on a template that was compiled or found in the cache. -/
def outcomeLine (o : CompileOutcome) : String :=
  let status := match o.status with
    | .compiled => "compiled"
    | .cached => "fresh"
  match o.file? with
  | some path => s!"{status} {o.name} -> {path.text}\n"
  | none => s!"{status} {o.name} ({o.key})\n"

/-- The data in a file, or no data. -/
def dataOf (disk : Disk) : Option Path → Except String Json
  | none => .ok (.object [])
  | some path =>
    match disk.readText? path with
    | none => .error s!"reading data file `{path.text}`"
    | some text =>
      match (Json.read? text).filter (Json.isReadable Json.nestingLimit) with
      | some data => .ok data
      | none => .error s!"parsing data file `{path.text}`"

/-- Runs a command on an engine. -/
def perform (now : Timestamp) (config : Config) (e : Engine Site) (command : Command)
    (disk : Disk) : Outcome :=
  let site : Site := (disk, config.cache.memory0)
  match command with
  | .compileAll root force =>
    let (report, site) := compileAll e now config.extensions root force site
    let count := report.failed.length
    let errors := failureLines report ++
      if count = 0 then "" else s!"Error: {count} template(s) failed to compile\n"
    ⟨if count = 0 then 0 else 1, reportLines report, errors, site.1⟩
  | .compile name force =>
    match if force then e.recompile now name site else e.compile now name site with
    | (.ok outcome, site) => ⟨0, outcomeLine outcome, "", site.1⟩
    | (.error err, site) => failed err.message site.1
  | .render name data =>
    match dataOf disk data with
    | .error message => failed message disk
    | .ok data =>
      match e.render now name (Scopes.ofJson data) site with
      | (.ok output, site) => ⟨0, output, "", site.1⟩
      | (.error err, site) => failed err.message site.1
  | .clear =>
    match e.cache.flush site with
    | (true, site) => ⟨0, "", "", site.1⟩
    | (false, site) => failed s!"failed to clear the {e.cache.name} cache" site.1

/-- The files that are read before the configuration is known. -/
def firstPlaces (args : List String) : List Path :=
  match parse args with
  | .ok (.run settings (.render _ data)) => settings.config.toList ++ data.toList
  | .ok (.run settings _) => settings.config.toList
  | _ => []

/-- The files and directories in which a run looks for templates and artifacts. -/
def laterPlaces (args : List String) (disk : Disk) : List Path :=
  match parse args with
  | .ok (.run settings command) =>
    match configOf settings command disk with
    | .error _ => []
    | .ok config =>
      let named := match command with
        | .compileAll root _ => [root]
        | .compile name _ | .render name _ => config.searchPath.candidates name
        | .clear => []
      let cache := match config.cache with
        | .directory path => [path]
        | _ => []
      config.roots ++ config.namespaces.map (·.2) ++ cache ++ named
  | _ => []

/-- Runs a command line on a disk. -/
def run (now : Timestamp) (args : List String) (disk : Disk) : Outcome :=
  match parse args with
  | .error e => ⟨2, "", s!"error: {e.message}\n\nFor more information, try '--help'.\n", disk⟩
  | .ok .version => ⟨0, versionLine, "", disk⟩
  | .ok (.help command) => ⟨0, helpText command, "", disk⟩
  | .ok (.run settings command) =>
    match configOf settings command disk with
    | .error e => failed e.message disk
    | .ok config =>
      match config.engine language with
      | .error e => failed e.message disk
      | .ok e => perform now config e command disk

end Hashmark.CommandLine
