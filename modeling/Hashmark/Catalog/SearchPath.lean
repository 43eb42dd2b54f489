import Hashmark.Catalog.Basic
import Hashmark.Dict
import Hashmark.Disk

/-!
# Search paths

How names lead to files. A name such as `errors.404` is looked up as `errors/404` with each of the
extensions under each of the roots, in order. A name with a namespace in front, as in
`admin::users.index`, is looked up in the directory of the namespace instead. A name that looks like
a path is taken as one, relative to the same directories.
-/

namespace Hashmark

/-- Where names are looked up. -/
structure SearchPath where
  roots : List Path
  namespaces : Dict Path
  extensions : List String
  deriving Repr

namespace SearchPath

/-- The namespace of a name, if it has one, and the rest of the name. -/
def splitNamespace (name : String) : Option String × String :=
  match Text.cut [':', ':'] name.toList with
  | some (ns, rest) => (some (String.ofList ns), String.ofList rest)
  | none => (none, name)

/-- Whether a name looks like a path: it has a slash, or ends in an extension. -/
def isPathLike (extensions : List String) (name : String) : Bool :=
  name.toList.contains '/' || name.toList.contains '\\' ||
    extensions.any fun extension => Path.hasExtension extension name

/-- The directories in which a name is looked up. -/
def directories (s : SearchPath) : Option String → List Path
  | some ns => (Dict.find? s.namespaces ns).toList
  | none => s.roots

/-- A dotted name as a path without an extension. -/
def dottedPath (name : String) : String :=
  String.ofList (name.toList.map fun c => if c = '.' then '/' else c)

/-- The paths at which a name may be found, in the order in which they are tried. -/
def candidates (s : SearchPath) (name : String) : List Path :=
  let (ns, rest) := splitNamespace name
  let directories := s.directories ns
  if isPathLike s.extensions rest then
    if Path.isAbsolute ⟨rest⟩ then [⟨rest⟩] else directories.map fun d => d.join ⟨rest⟩
  else
    directories.flatMap fun d =>
      s.extensions.map fun extension => d.join ⟨dottedPath rest ++ "." ++ extension⟩

/-- The first candidate that is a file, with its location, content and time. -/
def find (s : SearchPath) (disk : Disk) (name : String) :
    Except TemplateError (Location × ByteArray × Timestamp) :=
  match (s.candidates name).findSome? disk.file? with
  | some found => .ok found
  | none => .error (.notFound name ((s.candidates name).map Path.text))

/-- The template of a name. -/
def load (s : SearchPath) (disk : Disk) (name : String) : Except TemplateError Document :=
  match s.find disk name with
  | .error e => .error e
  | .ok (at', content, modified) =>
    match String.fromUTF8? content with
    | some text => .ok ⟨Disk.pathOf at', ⟨name, text⟩, modified⟩
    | none => .error (.unreadable (Disk.pathOf at').text)

theorem path_mem_filePaths {s : SearchPath} {disk : Disk} {name : String} {d : Document}
    (h : s.load disk name = .ok d) : d.path ∈ disk.filePaths := by
  unfold load at h
  split at h
  · cases h
  · next at' content modified hfind =>
    split at h <;> cases h
    unfold find at hfind
    split at hfind <;> cases hfind
    next hsome =>
    obtain ⟨p, -, hp⟩ := List.exists_of_findSome?_eq_some hsome
    exact Disk.pathOf_mem_filePaths hp

/-- A search path on a disk as a catalog. -/
def catalog (s : SearchPath) (disk : Disk) : Catalog where
  resolve name := (s.find disk name).map fun (at', _) => Disk.pathOf at'
  load := s.load disk
  modified := disk.modified?
  paths := disk.filePaths
  path_mem_paths := path_mem_filePaths

end SearchPath

end Hashmark
