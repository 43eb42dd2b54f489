import Hashmark.Artifact.Decoding
import Hashmark.Cache.Directory
import Hashmark.Cache.Memory
import Hashmark.Catalog.SearchPath
import Hashmark.Config
import Hashmark.Engine

/-!
# Sites

An engine on files: templates are looked up on a disk, and artifacts are kept in memory or in a
directory of the same disk. All templates below a directory can be compiled at once.
-/

namespace Hashmark

/-- The state of an engine on files. -/
abbrev Site := Disk × Memory

/-- A cache that cannot be had. -/
structure CacheUnavailable where
  backend : String
  reason : String
  deriving DecidableEq, Repr

/-- The message for a cache that cannot be had. -/
def CacheUnavailable.message (e : CacheUnavailable) : String :=
  s!"Cache backend `{e.backend}` is unavailable: {e.reason}"

namespace CacheChoice

/-- The backend of a choice. -/
def backend : CacheChoice → Except CacheUnavailable (Backend Site)
  | .none => .ok Backend.null
  | .memory _ => .ok Memory.backend.onSecond
  | .directory path => .ok (CacheDirectory.mk path).backend.onFirst
  | .redis _ _ _ => .error ⟨"redis", "ludou was built without the `redis` feature"⟩

/-- The memory that a choice starts with. -/
def memory0 : CacheChoice → Memory
  | .memory capacity => Memory.ofCapacity capacity
  | _ => Memory.ofCapacity 1

end CacheChoice

namespace Config

/-- Where names are looked up. -/
def searchPath (c : Config) : SearchPath :=
  ⟨c.roots, c.namespaces, c.extensions⟩

/-- The engine of some settings. -/
def engine (c : Config) (language : Language) : Except CacheUnavailable (Engine Site) := do
  let cache ← c.cache.backend
  pure
    { language := language
      catalog := fun s => c.searchPath.catalog s.1
      cache := cache
      codec := ⟨Artifact.encode, Artifact.decode?⟩
      key := cacheKey c.discriminator
      optimizes := c.optimizes
      alwaysCompiles := c.alwaysCompiles }

end Config

/-! ### All templates below a directory -/

/-- The files at or below a path that end in one of the extensions, in the order of their paths. A
lone dash stands for standard input, where there are none. -/
def templatesBelow (disk : Disk) (extensions : List String) (root : Path) : List Path :=
  match disk.locate? root with
  | none => []
  | some at' =>
    let found := (disk.filesBelow at').map fun names =>
      if names.isEmpty then root else root.join ⟨"/".intercalate names⟩
    let found := found.filter fun p => extensions.any fun e => Path.hasExtension e p.text
    if root.same ⟨"-"⟩ then [] else found.mergeSort Path.precedes

/-- What became of the templates below a directory; their paths are relative to it. -/
structure SiteReport where
  compiled : List Path
  cached : List Path
  failed : List (Path × TemplateError)
  total : Nat

namespace SiteReport

/-- Nothing has been compiled yet. -/
def empty : SiteReport :=
  ⟨[], [], [], 0⟩

/-- The report with one more template. -/
def add (r : SiteReport) (p : Path) (result : Except TemplateError CompileStatus) : SiteReport :=
  let r := { r with total := r.total + 1 }
  match result with
  | .ok .compiled => { r with compiled := r.compiled ++ [p] }
  | .ok .cached => { r with cached := r.cached ++ [p] }
  | .error e => { r with failed := r.failed ++ [(p, e)] }

end SiteReport

/-- Compiles every template below a directory under its path. -/
def compileAll (e : Engine Site) (now : Timestamp) (extensions : List String) (root : Path)
    (force : Bool) (s : Site) : SiteReport × Site :=
  (templatesBelow s.1 extensions root).foldl
    (fun (report, s) p =>
      let (result, s) := e.artifact now p.text (force || e.alwaysCompiles) s
      (report.add (root.relativeTo p) (result.map fun (_, o) => o.status), s))
    (SiteReport.empty, s)

end Hashmark
