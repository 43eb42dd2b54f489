import Hashmark.Cache.Backend
import Hashmark.Compile
import Hashmark.Optimize
import Hashmark.Render

/-!
# The engine

An engine compiles templates, keeps the artifacts in a cache and renders them. A stored artifact is
taken if it is the artifact of the resolved path, all its dependencies have the times they had, and
it is not older than the newest of them. In any other case the template is compiled again, and
stored if that is possible.

The engine works on a state, from which the catalog reads and on which the cache works.
-/

namespace Hashmark

/-- How artifacts are written and read. -/
structure Codec where
  encode : Artifact → String
  decode? : String → Option Artifact

/-- An engine with states in `σ`. -/
structure Engine (σ : Type) where
  language : Language
  catalog : σ → Catalog
  cache : Backend σ
  codec : Codec
  /-- The cache key of a path. -/
  key : Path → String
  /-- Whether artifacts are optimized. -/
  optimizes : Bool
  /-- Whether stored artifacts are never taken. -/
  alwaysCompiles : Bool

/-- How an artifact was obtained. -/
inductive CompileStatus where
  | compiled
  | cached
  deriving DecidableEq, Repr

/-- What is known after a template was compiled or found in the cache. -/
structure CompileOutcome where
  name : String
  key : String
  /-- The file that holds the artifact, if one does. -/
  file? : Option Path
  status : CompileStatus
  deriving DecidableEq, Repr

/-- The output of an artifact for the variables in view. -/
def Artifact.render (a : Artifact) (callables : Callables) (s : Scopes) :
    Except TemplateError String :=
  match Node.renderList ⟨callables, a.sections⟩ [] s a.body with
  | .ok pieces => .ok (String.join pieces)
  | .error e => .error (.failedCall a.name e.callable e.message)

namespace Engine

/-- The newest of the times of the dependencies that are there. -/
def newest (modified : Path → Option Timestamp) (a : Artifact) : Timestamp :=
  (a.dependencies.filterMap fun d => modified d.path).foldl Timestamp.latest .epoch

/-- Whether a stored artifact may be taken for a path. -/
def isCurrent (e : Engine σ) (key : String) (path : Path) (a : Artifact) (s : σ) : Bool :=
  let modified := (e.catalog s).modified
  a.templatePath?.any path.same && !a.isStale modified &&
    e.cache.isFresh key (newest modified a) s

/-- The stored artifact for a path, if it may be taken. -/
def cached (e : Engine σ) (now : Timestamp) (key : String) (path : Path) (s : σ) :
    Option Artifact × σ :=
  let (text?, s) := e.cache.get now key s
  (text?.bind e.codec.decode? |>.filter fun a => e.isCurrent key path a s, s)

/-- The artifact of a name, compiled anew. -/
def fresh (e : Engine σ) (name : String) (s : σ) : Except TemplateError Artifact :=
  (compile e.language (e.catalog s) name).map fun a => if e.optimizes then a.optimize else a

/-- Compiles a name and stores the artifact. -/
def build (e : Engine σ) (now : Timestamp) (name key : String) (s : σ) :
    Except TemplateError (Artifact × CompileOutcome) × σ :=
  match e.fresh name s with
  | .error err => (.error err, s)
  | .ok a =>
    match e.cache.put now key (e.codec.encode a) none s with
    | some s => (.ok (a, ⟨name, key, e.cache.location? key, .compiled⟩), s)
    | none => (.ok (a, ⟨name, key, none, .compiled⟩), s)

/-- The artifact of a name, from the cache unless `force` is set. -/
def artifact (e : Engine σ) (now : Timestamp) (name : String) (force : Bool) (s : σ) :
    Except TemplateError (Artifact × CompileOutcome) × σ :=
  match (e.catalog s).resolve name with
  | .error err => (.error err, s)
  | .ok path =>
    let key := e.key path
    if force then e.build now name key s
    else
      match e.cached now key path s with
      | (some a, s) => (.ok (a, ⟨name, key, e.cache.location? key, .cached⟩), s)
      | (none, s) => e.build now name key s

/-- Makes sure that the artifact of a name is in the cache. -/
def compile (e : Engine σ) (now : Timestamp) (name : String) (s : σ) :
    Except TemplateError CompileOutcome × σ :=
  let (result, s) := e.artifact now name e.alwaysCompiles s
  (result.map (·.2), s)

/-- Makes sure that the artifact of the template at a path is in the cache. -/
def compilePath (e : Engine σ) (now : Timestamp) (p : Path) (s : σ) :
    Except TemplateError CompileOutcome × σ :=
  e.compile now p.text s

/-- Compiles a name whether its artifact is in the cache or not. -/
def recompile (e : Engine σ) (now : Timestamp) (name : String) (s : σ) :
    Except TemplateError CompileOutcome × σ :=
  let (result, s) := e.artifact now name true s
  (result.map (·.2), s)

/-- The output of a template for the variables in view. -/
def render (e : Engine σ) (now : Timestamp) (name : String) (scopes : Scopes) (s : σ) :
    Except TemplateError String × σ :=
  let (result, s) := e.artifact now name e.alwaysCompiles s
  (result.bind fun (a, _) => a.render e.language.callables scopes, s)

end Engine

end Hashmark
