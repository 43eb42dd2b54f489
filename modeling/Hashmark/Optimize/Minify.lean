import Hashmark.Optimize.Region
import Hashmark.Syntax

/-!
# Minifying nodes

`Node.minifyList` minifies the texts of nodes and follows the region from node to node in the order
of rendering: through the branches of a choice, the passes of a loop, and the overrides that take
the place of a block or a yield. Where a region cannot be known it is `unknown`, and texts stay as
they are.

One pass can make another one useful, since a comment can be followed by what turns into a comment
once it is gone. `settle` repeats the pass as long as the texts get smaller in the measure
`textMeasure`.
-/

namespace Hashmark

/-- What is known about the overrides when nodes are minified. -/
structure OverrideFacts where
  /-- The names with an override; nothing if the overrides are not known. -/
  names? : Option (List String)
  /-- The names whose overrides can lead into a raw element or out of one. -/
  changing : List String

/-- The region after the override of a name that is entered in `region`; nothing if the name has no
override, so that the node itself counts. -/
def OverrideFacts.after? (facts : OverrideFacts) (name : String) (region : Region) :
    Option Region :=
  match facts.names? with
  | none => some .unknown
  | some names =>
    if names.contains name then
      some (if facts.changing.contains name then .unknown else region)
    else none

/-- An override that is entered in a region. -/
abbrev Visit := String × Region

/-- The visit of a name; if the overrides are not known, there are none. -/
def OverrideFacts.visits (facts : OverrideFacts) (name : String) (region : Region) : List Visit :=
  if (facts.names?.getD []).contains name then [(name, region)] else []

/-- The built-in callables whose values are escaped when they are emitted. -/
def plainCallables : List String :=
  ["count", "range", "json", "max", "min", "upper", "lower", "capitalize", "title", "trim",
   "length", "first", "last", "reverse", "sort", "join", "default", "escape"]

/-- Whether the value of an expression may be markup. -/
def Expr.mayBeMarkup (e : Expr) : Bool :=
  e.callees.any fun callee => !plainCallables.contains callee.name

/-- What a pass over nodes gives: the nodes, the region after them, and the overrides that are
entered on the way. -/
structure Minified where
  nodes : List Node
  region : Region
  visits : List Visit

/-- What a pass over the branches of a choice gives. -/
structure MinifiedBranches where
  branches : List (Expr × List Node)
  /-- The regions after the branches. -/
  regions : List Region
  visits : List Visit

mutual

/-- One pass over a node that is entered in a region. -/
def Node.minify (facts : OverrideFacts) (region : Region) : Node → Minified
  | .text content =>
    let (content, last) := minifyText region content
    ⟨if content = "" then [] else [.text content], last, []⟩
  | .emit value =>
    ⟨[.emit value], if value.mayBeMarkup then .unknown else region, []⟩
  | .choose branches otherwise =>
    let b := Node.minifyBranches facts region branches
    match Node.minifyOption facts region otherwise with
    | some o =>
      ⟨[.choose b.branches (some o.nodes)], Region.common (b.regions ++ [o.region]),
        b.visits ++ o.visits⟩
    | none => ⟨[.choose b.branches none], Region.common (b.regions ++ [region]), b.visits⟩
  | .forEach source key value body =>
    let once := Node.minifyList facts region body
    if once.region = region then
      ⟨[.forEach source key value once.nodes], region, once.visits⟩
    else
      -- a later pass starts where the one before it ended
      let again := Node.minifyList facts .unknown body
      ⟨[.forEach source key value again.nodes], again.region, once.visits ++ again.visits⟩
  | .block name body =>
    match facts.after? name region with
    | some after =>
      -- the body is not rendered, the override is
      let unused := Node.minifyList facts .unknown body
      ⟨[.block name unused.nodes], after, facts.visits name region ++ unused.visits⟩
    | none =>
      let inside := Node.minifyList facts region body
      ⟨[.block name inside.nodes], inside.region, inside.visits⟩
  | .yield name default =>
    ⟨[.yield name default], (facts.after? name region).getD region, facts.visits name region⟩
  | .connect name => ⟨[.connect name], region, []⟩
  | .comment content => ⟨[.comment content], region, []⟩

/-- One pass over several nodes. -/
def Node.minifyList (facts : OverrideFacts) (region : Region) : List Node → Minified
  | [] => ⟨[], region, []⟩
  | n :: ns =>
    let first := n.minify facts region
    let rest := Node.minifyList facts first.region ns
    ⟨first.nodes ++ rest.nodes, rest.region, first.visits ++ rest.visits⟩

/-- One pass over the branches of a choice, each of which is entered in the same region. -/
def Node.minifyBranches (facts : OverrideFacts) (region : Region) :
    List (Expr × List Node) → MinifiedBranches
  | [] => ⟨[], [], []⟩
  | (condition, body) :: branches =>
    let first := Node.minifyList facts region body
    let rest := Node.minifyBranches facts region branches
    ⟨(condition, first.nodes) :: rest.branches, first.region :: rest.regions,
      first.visits ++ rest.visits⟩

/-- One pass over a body that may be absent. -/
def Node.minifyOption (facts : OverrideFacts) (region : Region) :
    Option (List Node) → Option Minified
  | none => none
  | some body => some (Node.minifyList facts region body)

end

/-! ### Repeating the pass -/

mutual

/-- The texts of a node, at any depth. -/
def Node.texts : Node → List String
  | .text content => [content]
  | .choose branches otherwise => Node.textsOfBranches branches ++ Node.textsOfOption otherwise
  | .forEach _ _ _ body => Node.textsOfList body
  | .block _ body => Node.textsOfList body
  | .emit _ | .yield _ _ | .connect _ | .comment _ => []

/-- The texts of several nodes. -/
def Node.textsOfList : List Node → List String
  | [] => []
  | n :: ns => n.texts ++ Node.textsOfList ns

/-- The texts of the branches of a choice. -/
def Node.textsOfBranches : List (Expr × List Node) → List String
  | [] => []
  | (_, body) :: branches => Node.textsOfList body ++ Node.textsOfBranches branches

/-- The texts of a body that may be absent. -/
def Node.textsOfOption : Option (List Node) → List String
  | none => []
  | some body => Node.textsOfList body

end

/-- Whether a character is a blank that a pass replaces by another one. -/
def isOddBlank (c : Char) : Bool :=
  Text.isBlank c && c != ' ' && c != '\n'

/-- The sum of a measure over some texts. -/
def totalOf (measure : String → Nat) (texts : List String) : Nat :=
  texts.foldr (fun t total => measure t + total) 0

/-- The number of characters in texts, the number of odd blanks among them, and the number of
texts. A pass that changes anything makes this smaller, compared from left to right. -/
def textMeasure (nodes : List Node) : Nat × Nat × Nat :=
  let texts := Node.textsOfList nodes
  (totalOf String.length texts, totalOf (·.toList.countP isOddBlank) texts, texts.length)

/-- Whether a measure is smaller than another one. -/
def measureLess (a b : Nat × Nat × Nat) : Bool :=
  a.1 < b.1 || (a.1 = b.1 && (a.2.1 < b.2.1 || (a.2.1 = b.2.1 && a.2.2 < b.2.2)))

/-- Nodes that are minified until nothing changes, and the overrides that the last pass entered. -/
def settle (facts : OverrideFacts) (start : Region) (nodes : List Node) : List Node × List Visit :=
  let pass := Node.minifyList facts start nodes
  if measureLess (textMeasure pass.nodes) (textMeasure nodes) then settle facts start pass.nodes
  else (pass.nodes, pass.visits)
termination_by textMeasure nodes
decreasing_by
  rename_i h
  simp only [measureLess, Bool.or_eq_true, Bool.and_eq_true, decide_eq_true_eq] at h
  rcases h with h | ⟨h₁, h | ⟨h₂, h₃⟩⟩
  · exact Prod.Lex.left _ _ h
  · exact Prod.lex_def.2 (Or.inr ⟨h₁, Prod.Lex.left _ _ h⟩)
  · exact Prod.lex_def.2 (Or.inr ⟨h₁, Prod.lex_def.2 (Or.inr ⟨h₂, h₃⟩)⟩)

end Hashmark
