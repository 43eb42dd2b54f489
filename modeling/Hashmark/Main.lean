import Hashmark.CommandLine.Run

/-!
# The program

Reads the files and directories that a command line needs into a file tree, runs the command on the
tree, and writes back what has changed.
-/

namespace Hashmark.CommandLine

/-- The location that an absolute path writes. -/
def locationOf (path : String) : Location :=
  (Path.segments ⟨path⟩).filter (· ≠ "")

/-- A tree with a directory at a location and at all those above it. -/
def withDirectories (d : Disk) (at' : Location) : Disk :=
  (List.range (at'.length + 1)).foldl (fun d n =>
    if (d.entry? (at'.take n)).isSome then d else d.put (at'.take n) .directory) d

/-- The greatest depth to which directories are read. -/
def depthLimit : Nat := 64

/-- A tree with what is at an absolute path, and below it as far as `depth` goes. -/
def readPlace (depth : Nat) (path : String) (d : Disk) : IO Disk := do
  let place ← IO.FS.realPath path
  let info ← place.metadata
  let at' := locationOf path
  match depth, info.type with
  | _, .file =>
    let content ← IO.FS.readBinFile place
    let modified : Timestamp :=
      ⟨UInt64.ofNat info.modified.sec.toNat, info.modified.nsec⟩
    pure ((withDirectories d at'.dropLast).put at' (.file content modified))
  | depth + 1, .dir =>
    let children ← place.readDir
    children.foldlM (fun d child => readPlace depth (path ++ "/" ++ child.fileName) d)
      (withDirectories d at')
  | _, _ => pure d

/-- A tree with what is at some paths; what cannot be read is left out. -/
def readPlaces (paths : List Path) (d : Disk) : IO Disk :=
  paths.foldlM (fun d p => do
    try
      let place ← IO.FS.realPath ((Disk.pathOf d.current).join p).text
      readPlace depthLimit place.toString d
    catch _ => pure d) d

/-- Writes the files of a tree that were not there before, and removes those that are gone. -/
def writeChanges (before after : Disk) : IO Unit := do
  for (at', e) in before.entries do
    match e, after.entry? at' with
    | .file _ _, none => IO.FS.removeFile (Disk.pathOf at').text
    | _, _ => pure ()
  for (at', e) in after.entries do
    unless (before.entry? at').any e.same do
      match e with
      | .directory => IO.FS.createDirAll (Disk.pathOf at').text
      | .file content _ =>
        IO.FS.createDirAll (Disk.pathOf at'.dropLast).text
        IO.FS.writeBinFile (Disk.pathOf at').text content

end Hashmark.CommandLine

open Hashmark CommandLine in
def main (args : List String) : IO UInt32 := do
  let current ← IO.currentDir
  let d := withDirectories ⟨[], locationOf current.toString⟩ (locationOf current.toString)
  let d ← readPlaces (firstPlaces args) d
  let d ← readPlaces (laterPlaces args d) d
  -- only the order of times matters to a run
  let outcome := run d.latest args d
  writeChanges d outcome.disk
  IO.print outcome.output
  IO.eprint outcome.errors
  pure (UInt32.ofNat outcome.exitCode)
