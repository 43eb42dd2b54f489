import Hashmark.Path
import Hashmark.Syntax
import Hashmark.Timestamp

/-!
# Artifacts

A compiled template: the tree of its outermost layout, the overrides that the templates of the chain
contribute, and the files that all of it was read from, with their times of modification.
-/

namespace Hashmark

/-- A file that an artifact was compiled from. -/
structure Dependency where
  path : Path
  modified : Timestamp
  deriving DecidableEq, Repr

/-- A compiled template. -/
structure Artifact where
  /-- The version of the written form. -/
  version : UInt32
  /-- The name that was compiled. -/
  name : String
  /-- The overrides, those of the most derived template first. -/
  sections : List Override
  body : List Node
  /-- The template first, then its layouts and partials. -/
  dependencies : List Dependency
  deriving Repr

namespace Artifact

/-- The version of the written form that this library writes and reads. -/
def currentVersion : UInt32 := 1

/-- The path of the template that was compiled. -/
def templatePath? (a : Artifact) : Option Path :=
  a.dependencies.head?.map Dependency.path

/-- Whether a dependency has changed or is gone, given the present times of modification. -/
def isStale (a : Artifact) (modified : Path → Option Timestamp) : Bool :=
  a.dependencies.any fun d => modified d.path != some d.modified

/-- The names that have an override, each once. -/
def overriddenNames (a : Artifact) : List String :=
  (a.sections.map Override.name).eraseDups

end Artifact

end Hashmark
