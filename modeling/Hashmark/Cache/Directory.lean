import Hashmark.Cache.Backend
import Hashmark.Cache.Key
import Hashmark.Disk

/-!
# The cache in a directory

One file for each key, named by the digest of the key. The directory is made when the first entry is
written. Entries do not expire, but one that is older than what it was made from is not fresh.
-/

namespace Hashmark

/-- A directory for entries. -/
structure CacheDirectory where
  path : Path

namespace CacheDirectory

/-- The extension of the files that hold entries. -/
def extension : String := "ludou"

/-- The file that holds the entry of a key. -/
def fileOf (c : CacheDirectory) (key : String) : Path :=
  c.path.join ⟨hexDigest key.toUTF8.toList ++ "." ++ extension⟩

/-- Whether a name in the directory is that of an entry. -/
def isEntryName (name : String) : Bool :=
  Path.hasExtension extension name && name != "." ++ extension

/-- Stores an entry. -/
def put (c : CacheDirectory) (now : Timestamp) (key text : String) (d : Disk) : Option Disk := do
  let d ← d.makeDirectories c.path
  d.write (c.fileOf key) text.toUTF8 now

/-- Removes the file of an entry, and tells whether there was one. -/
def forget (c : CacheDirectory) (key : String) (d : Disk) : Bool × Disk :=
  match d.removeFile (c.fileOf key) with
  | some d => (true, d)
  | none => (false, d)

/-- Removes the files of all entries, and tells whether none of that name is left. A directory that
is not there has none. -/
def flush (c : CacheDirectory) (d : Disk) : Bool × Disk :=
  match d.locate c.path with
  | .error .missing => (true, d)
  | .error .blocked => (false, d)
  | .ok at' =>
    if !d.isDirectoryAt at' then (false, d)
    else
      let entries := ((d.namesIn at').filter isEntryName).map fun name => at' ++ [name]
      let (directories, files) := entries.partition d.isDirectoryAt
      (directories.isEmpty, files.foldl Disk.drop d)

/-- A directory as a backend. -/
def backend (c : CacheDirectory) : Backend Disk where
  name := "file"
  get _ key d := (d.readText? (c.fileOf key), d)
  put now key text _ d := c.put now key text d
  has _ key d := (d.isFile (c.fileOf key), d)
  forget := c.forget
  flush := c.flush
  isFresh key time d := (d.modified? (c.fileOf key)).any fun stored => time.notAfter stored
  location? key := some (c.fileOf key)

end CacheDirectory

end Hashmark
