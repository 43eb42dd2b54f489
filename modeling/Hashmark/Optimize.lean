import Hashmark.Artifact.Basic
import Hashmark.Optimize.Fold
import Hashmark.Optimize.Minify

/-!
# The optimizer

Simplifies nodes without changing what they render, apart from blanks and HTML comments. A list of
nodes is optimized on its own (`optimize`), where the overrides are not known, or as part of an
artifact (`Artifact.optimize`): first its body, and then every override from the region in which the
body enters it, if that is the same everywhere.
-/

namespace Hashmark

/-- Nodes optimized on their own: after a yield or a block, the region is not known. -/
def optimize (nodes : List Node) : List Node :=
  (settle ⟨none, []⟩ .markup (prepare nodes)).1

/-! ### What overrides do to the region -/

mutual

/-- Whether a node can lead into a raw element or out of one, given the names of overrides that
can. -/
def Node.changesRegion (changing : List String) : Node → Bool
  | .text content => mentionsRawElement content.toList
  | .emit value => value.mayBeMarkup
  | .choose branches otherwise =>
    Node.changesRegionBranches changing branches || Node.changesRegionOption changing otherwise
  | .forEach _ _ _ body => Node.changesRegionList changing body
  | .block name body => changing.contains name || Node.changesRegionList changing body
  | .yield name _ => changing.contains name
  | .connect _ | .comment _ => false

/-- Whether one of several nodes can. -/
def Node.changesRegionList (changing : List String) : List Node → Bool
  | [] => false
  | n :: ns => n.changesRegion changing || Node.changesRegionList changing ns

/-- Whether a branch of a choice can. -/
def Node.changesRegionBranches (changing : List String) : List (Expr × List Node) → Bool
  | [] => false
  | (_, body) :: branches =>
    Node.changesRegionList changing body || Node.changesRegionBranches changing branches

/-- Whether a body that may be absent can. -/
def Node.changesRegionOption (changing : List String) : Option (List Node) → Bool
  | none => false
  | some body => Node.changesRegionList changing body

end

mutual

/-- The names of the blocks and the yields in a node, at any depth. -/
def Node.partNames : Node → List String
  | .yield name _ => [name]
  | .block name body => name :: Node.partNamesOfList body
  | .choose branches otherwise =>
    Node.partNamesOfBranches branches ++ Node.partNamesOfOption otherwise
  | .forEach _ _ _ body => Node.partNamesOfList body
  | .text _ | .emit _ | .connect _ | .comment _ => []

/-- The names in several nodes. -/
def Node.partNamesOfList : List Node → List String
  | [] => []
  | n :: ns => n.partNames ++ Node.partNamesOfList ns

/-- The names in the branches of a choice. -/
def Node.partNamesOfBranches : List (Expr × List Node) → List String
  | [] => []
  | (_, body) :: branches => Node.partNamesOfList body ++ Node.partNamesOfBranches branches

/-- The names in a body that may be absent. -/
def Node.partNamesOfOption : Option (List Node) → List String
  | none => []
  | some body => Node.partNamesOfList body

end

/-- The overrides that are rendered, the first one of each name; `seen` are the names before. -/
def liveOverrides (seen : List String) : List Override → List Override
  | [] => []
  | o :: os =>
    if seen.contains o.name then liveOverrides seen os
    else o :: liveOverrides (o.name :: seen) os

/-- The names of overrides that can change the region, given names of which this is known. -/
def changingOnce (live : List Override) (changing : List String) : List String :=
  (live.filter fun o => Node.changesRegionList changing o.body).map Override.name

/-- The names of overrides that can change the region, as far as `rounds` references can tell. -/
def changingNames (live : List Override) : Nat → List String
  | 0 => []
  | rounds + 1 => changingOnce live (changingNames live rounds)

/-! ### Artifacts -/

/-- The region in which an override is entered: that of its visits in the body, unless another
override may render it too. -/
def entryRegion (visits : List Visit) (nested : List String) (name : String) : Region :=
  if nested.contains name then .unknown
  else Region.common ((visits.filter (·.1 = name)).map (·.2))

/-- The overrides, each minified from the region in which it is entered. One that is not rendered,
because an override of its name comes before it, has no such region. -/
def optimizeOverrides (facts : OverrideFacts) (entry : String → Region) (seen : List String) :
    List Override → List Override
  | [] => []
  | o :: os =>
    let start := if seen.contains o.name then .unknown else entry o.name
    { o with body := (settle facts start o.body).1 }
      :: optimizeOverrides facts entry (o.name :: seen) os

/-- A body and its overrides, optimized together. -/
def optimizeParts (body : List Node) (overrides : List Override) : List Node × List Override :=
  let body := prepare body
  let overrides := overrides.map fun o => { o with body := prepare o.body }
  let live := liveOverrides [] overrides
  let nested := live.flatMap fun o => Node.partNamesOfList o.body
  let facts : OverrideFacts :=
    { names? := some (live.map Override.name), changing := changingNames live live.length }
  let (body, visits) := settle facts .markup body
  (body, optimizeOverrides facts (entryRegion visits nested) [] overrides)

/-- An artifact with its body and its overrides optimized. -/
def Artifact.optimize (a : Artifact) : Artifact :=
  let (body, sections) := optimizeParts a.body a.sections
  { a with body := body, sections := sections }

end Hashmark
