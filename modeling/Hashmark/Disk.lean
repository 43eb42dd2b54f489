import Hashmark.Path
import Hashmark.Timestamp

/-!
# File trees

The part of a disk that a program works on: files with their contents and times, and directories.
A location is the list of names from the root; a path is followed from step to step, and every step
but the last has to lead to a directory.
-/

namespace Hashmark

/-- The names from the root to a file or a directory. -/
abbrev Location := List String

/-- What is at a location. -/
inductive DiskEntry where
  | file (content : ByteArray) (modified : Timestamp)
  | directory

/-- Whether two entries are both directories, or both files with the same content and time. -/
def DiskEntry.same : DiskEntry → DiskEntry → Bool
  | .directory, .directory => true
  | .file content modified, .file content' modified' =>
    content.data = content'.data && modified = modified'
  | _, _ => false

/-- A file tree and the directory that relative paths start from. -/
structure Disk where
  entries : List (Location × DiskEntry)
  current : Location

namespace Disk

/-- What is at a location. The root is always a directory. -/
def entry? (d : Disk) (at' : Location) : Option DiskEntry :=
  if at' = [] then some .directory else d.entries.lookup at'

/-- Whether a location is a directory. -/
def isDirectoryAt (d : Disk) (at' : Location) : Bool :=
  match d.entry? at' with
  | some .directory => true
  | _ => false

/-- Puts something at a location, in place of what was there. -/
def put (d : Disk) (at' : Location) (e : DiskEntry) : Disk :=
  { d with entries := (at', e) :: d.entries.filter (·.1 ≠ at') }

/-- Removes what is at a location. -/
def drop (d : Disk) (at' : Location) : Disk :=
  { d with entries := d.entries.filter (·.1 ≠ at') }

/-- Where a path starts. -/
def start (d : Disk) (p : Path) : Location :=
  if p.isAbsolute then [] else d.current

/-- Why a path leads nowhere. -/
inductive PathFault where
  /-- There is nothing of a name. -/
  | missing
  /-- A step goes on from a file. -/
  | blocked
  deriving DecidableEq, Repr

/-- The location that a segment of a path leads to from another location. -/
def follow (d : Disk) (at' : Location) (segment : String) : Except PathFault Location :=
  if !d.isDirectoryAt at' then .error .blocked
  else
    match Path.stepOf? segment with
    | none | some .root | some .here => .ok at'
    | some .up => .ok at'.dropLast
    | some (.name name) =>
      if (d.entry? (at' ++ [name])).isSome then .ok (at' ++ [name]) else .error .missing

/-- The location of a path. -/
def locate (d : Disk) (p : Path) : Except PathFault Location :=
  if p.text = "" then .error .missing else p.segments.foldlM d.follow (d.start p)

/-- The location of a path, if there is something. -/
def locate? (d : Disk) (p : Path) : Option Location :=
  (d.locate p).toOption

/-- The path from the root to a location. -/
def pathOf (at' : Location) : Path :=
  ⟨"/" ++ "/".intercalate at'⟩

/-- The content of a file and its time. -/
def file? (d : Disk) (p : Path) : Option (Location × ByteArray × Timestamp) := do
  let at' ← d.locate? p
  match d.entry? at' with
  | some (.file content modified) => some (at', content, modified)
  | _ => none

/-- Whether a path leads to a file. -/
def isFile (d : Disk) (p : Path) : Bool :=
  (d.file? p).isSome

/-- The text of a file; a content that is no UTF-8 has none. -/
def readText? (d : Disk) (p : Path) : Option String := do
  let (_, content, _) ← d.file? p
  String.fromUTF8? content

/-- The time of a file. -/
def modified? (d : Disk) (p : Path) : Option Timestamp :=
  (d.file? p).map (·.2.2)

/-- The path from the root to the files of the tree. -/
def filePaths (d : Disk) : List Path :=
  d.entries.map fun (at', _) => pathOf at'

theorem pathOf_mem_filePaths {d : Disk} {p : Path} {at' : Location} {content : ByteArray}
    {modified : Timestamp} (h : d.file? p = some (at', content, modified)) :
    pathOf at' ∈ d.filePaths := by
  simp only [file?, Option.bind_eq_bind, Option.bind_eq_some_iff] at h
  obtain ⟨l, -, h⟩ := h
  split at h
  · next hentry =>
    cases h
    unfold entry? at hentry
    split at hentry
    · cases hentry
    · rw [List.lookup_eq_some_iff] at hentry
      obtain ⟨before, after, heq, -⟩ := hentry
      simp [filePaths, heq]
  · cases h

/-- The names in a directory, each once. -/
def namesIn (d : Disk) (at' : Location) : List String :=
  d.entries.filterMap fun (l, _) =>
    if l.dropLast = at' then l.getLast? else none

/-- The latest time of a file. -/
def latest (d : Disk) : Timestamp :=
  d.entries.foldl (fun time (_, e) =>
    match e with
    | .file _ modified => time.latest modified
    | .directory => time) .epoch

/-! ### Changes -/

/-- The tree with the directories that are missing on the way of some segments, and the location
that the segments lead to. -/
def makeWay (d : Disk) (at' : Location) : List String → Option (Disk × Location)
  | [] => if d.isDirectoryAt at' then some (d, at') else none
  | segment :: segments =>
    if !d.isDirectoryAt at' then none
    else
      match Path.stepOf? segment with
      | none | some .root | some .here => d.makeWay at' segments
      | some .up => d.makeWay at'.dropLast segments
      | some (.name name) =>
        if (d.entry? (at' ++ [name])).isSome then d.makeWay (at' ++ [name]) segments
        else (d.put (at' ++ [name]) .directory).makeWay (at' ++ [name]) segments

/-- Makes a directory and those above it, unless a file is in the way. -/
def makeDirectories (d : Disk) (p : Path) : Option Disk :=
  if p.text = "" then some d else (d.makeWay (d.start p) p.segments).map (·.1)

/-- Writes a file whose directory is there, unless a directory has its name. -/
def write (d : Disk) (p : Path) (content : ByteArray) (now : Timestamp) : Option Disk := do
  let name ← p.segments.getLast?
  match Path.stepOf? name with
  | some (.name name) =>
    let at' ← (p.segments.dropLast.foldlM d.follow (d.start p)).toOption
    if d.isDirectoryAt at' && !d.isDirectoryAt (at' ++ [name]) then
      some (d.put (at' ++ [name]) (.file content now))
    else none
  | _ => none

/-- Removes a file. -/
def removeFile (d : Disk) (p : Path) : Option Disk :=
  (d.file? p).map fun (at', _) => d.drop at'

/-- The files below a directory, each with the names that lead to it from there. -/
def filesBelow (d : Disk) (at' : Location) : List Location :=
  d.entries.filterMap fun (l, e) =>
    match e with
    | .directory => none
    | .file _ _ => if at'.isPrefixOf l then some (l.drop at'.length) else none

end Disk

end Hashmark
