import Hashmark.Text.Cut

/-!
# Paths

A path is kept as it is written. Two paths are the same (`Path.same`) if they have the same steps:
repeated slashes, a slash at the end and steps `.` after the first do not count. Paths are joined,
compared and taken apart without looking at a disk.
-/

namespace Hashmark

/-- The pieces of a text between the occurrences of a character, one more than there are. -/
def splitAt (separator : Char) : List Char → List (List Char)
  | [] => [[]]
  | c :: cs =>
    if c = separator then [] :: splitAt separator cs
    else
      match splitAt separator cs with
      | [] => [[c]]
      | piece :: pieces => (c :: piece) :: pieces

/-- A path to a file or a directory. -/
structure Path where
  text : String
  deriving DecidableEq, Repr

namespace Path

/-- One step of a path. -/
inductive Step where
  /-- A slash at the start. -/
  | root
  /-- A dot at the start. -/
  | here
  | up
  | name (text : String)
  deriving DecidableEq, Repr

/-- The place of a kind of step in the order of steps. -/
def Step.rank : Step → Nat
  | .root => 0
  | .here => 1
  | .up => 2
  | .name _ => 3

/-- The order of steps: the kinds in turn, and names by their characters. -/
def Step.compare : Step → Step → Ordering
  | .name a, .name b => Ord.compare a b
  | a, b => Ord.compare a.rank b.rank

/-- How a step is written; a slash stands between steps anyway. -/
def Step.text : Step → String
  | .root => ""
  | .here => "."
  | .up => ".."
  | .name text => text

/-- The texts between the slashes. -/
def segments (p : Path) : List String :=
  (splitAt '/' p.text.toList).map String.ofList

/-- Whether the path starts at the root. -/
def isAbsolute (p : Path) : Bool :=
  p.text.toList.head? = some '/'

/-- The step that a segment is, unless it is empty or a dot. -/
def stepOf? (segment : String) : Option Step :=
  if segment = "" ∨ segment = "." then none
  else if segment = ".." then some .up
  else some (.name segment)

/-- The steps of a path. -/
def steps (p : Path) : List Step :=
  let rest := p.segments.filterMap stepOf?
  match p.segments with
  | "." :: _ => .here :: rest
  | _ => if p.isAbsolute then .root :: rest else rest

/-- Whether two paths have the same steps. -/
def same (p q : Path) : Bool :=
  p.steps = q.steps

theorem same_refl (p : Path) : p.same p = true := by
  simp [same]

/-- The order of two lists of steps. -/
def compareSteps : List Step → List Step → Ordering
  | [], [] => .eq
  | [], _ :: _ => .lt
  | _ :: _, [] => .gt
  | a :: as, b :: bs => (a.compare b).then (compareSteps as bs)

/-- Whether a path comes before another one or is the same. -/
def precedes (p q : Path) : Bool :=
  (compareSteps p.steps q.steps).isLE

/-- A path taken from a directory: an absolute one stays, another one is put behind a slash. -/
def join (directory p : Path) : Path :=
  if p.isAbsolute || directory.text = "" then p
  else if directory.text.toList.getLast? = some '/' then ⟨directory.text ++ p.text⟩
  else ⟨directory.text ++ "/" ++ p.text⟩

/-- Segments from the last to the first without those at the end that are no steps. -/
def dropIdle : List String → List String
  | [] => []
  | ["."] => ["."]
  | segment :: rest => if (stepOf? segment).isNone then dropIdle rest else segment :: rest

/-- The directory that a path is in; the root and the empty path are in none. -/
def parent? (p : Path) : Option Path :=
  match dropIdle p.segments.reverse with
  | [] => none
  | _ :: rest =>
    match dropIdle rest with
    | [] => some ⟨if p.isAbsolute then "/" else ""⟩
    | rest => some ⟨"/".intercalate rest.reverse⟩

/-- The steps after those of a directory, if the path starts with them. -/
def stepsBelow? (directory p : List Step) : Option (List Step) :=
  match directory, p with
  | [], rest => some rest
  | a :: as, b :: bs => if a = b then stepsBelow? as bs else none
  | _ :: _, [] => none

/-- The path relative to a directory that it starts with, or else the path itself. -/
def relativeTo (directory p : Path) : Path :=
  match stepsBelow? directory.steps p.steps with
  | some rest => ⟨"/".intercalate (rest.map Step.text)⟩
  | none => p

/-- Whether a text ends in a dot and an extension. -/
def hasExtension (extension name : String) : Bool :=
  name.endsWith ("." ++ extension)

end Path

end Hashmark
