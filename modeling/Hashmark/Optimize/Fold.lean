import Hashmark.Escape
import Hashmark.Expression.Evaluation

/-!
# Constant folding and merging of texts

`Node.fold` drops comments, writes the constants of markers as text, and decides the branches of a
choice whose conditions are constants. `Node.mergeList` then joins neighbouring texts and drops the
empty ones. `prepare` is both: what it gives holds no comment, no constant marker, no constant
condition, no empty text and no two texts side by side.
-/

namespace Hashmark

/-- Whether a constant condition holds; other conditions are left open. -/
def Expr.constantTruth? : Expr → Option Bool
  | .lit constant => some constant.value.isTruthy
  | _ => none

/-- A choice among the branches that are left; without branches, the last body in its place. -/
def Node.choice (branches : List (Expr × List Node)) (otherwise : Option (List Node)) :
    List Node :=
  if branches.isEmpty then otherwise.getD [] else [.choose branches otherwise]

mutual

/-- The nodes that a node folds to. -/
def Node.fold : Node → List Node
  | .comment _ => []
  | .emit (.lit constant) => [.text (escape constant.value)]
  | .emit value => [.emit value]
  | .choose branches otherwise =>
    let (kept, decided) := Node.foldBranches branches
    Node.choice kept (decided.or (Node.foldOption otherwise))
  | .forEach source key value body => [.forEach source key value (Node.foldList body)]
  | .block name body => [.block name (Node.foldList body)]
  | .text content => [.text content]
  | .yield name default => [.yield name default]
  | .connect name => [.connect name]

/-- The nodes that several nodes fold to. -/
def Node.foldList : List Node → List Node
  | [] => []
  | n :: ns => n.fold ++ Node.foldList ns

/-- The branches that are left open, up to one whose condition is a constant that holds, and the
body of that one. -/
def Node.foldBranches : List (Expr × List Node) → List (Expr × List Node) × Option (List Node)
  | [] => ([], none)
  | (condition, body) :: branches =>
    match condition.constantTruth? with
    | some true => ([], some (Node.foldList body))
    | some false => Node.foldBranches branches
    | none =>
      let (kept, decided) := Node.foldBranches branches
      ((condition, Node.foldList body) :: kept, decided)

/-- What a body that may be absent folds to. -/
def Node.foldOption : Option (List Node) → Option (List Node)
  | none => none
  | some body => some (Node.foldList body)

end

/-- Puts a node in front of merged nodes: an empty text is dropped, and a text in front of another
one is joined to it. -/
def Node.join : Node → List Node → List Node
  | .text content, rest =>
    if content = "" then rest
    else
      match rest with
      | .text next :: rest => .text (content ++ next) :: rest
      | rest => .text content :: rest
  | node, rest => node :: rest

mutual

/-- A node whose bodies are merged. -/
def Node.merge : Node → Node
  | .choose branches otherwise =>
    .choose (Node.mergeBranches branches) (Node.mergeOption otherwise)
  | .forEach source key value body => .forEach source key value (Node.mergeList body)
  | .block name body => .block name (Node.mergeList body)
  | node => node

/-- Nodes without empty texts and without texts side by side, at any depth. -/
def Node.mergeList : List Node → List Node
  | [] => []
  | n :: ns => n.merge.join (Node.mergeList ns)

/-- The branches of a choice, with merged bodies. -/
def Node.mergeBranches : List (Expr × List Node) → List (Expr × List Node)
  | [] => []
  | (condition, body) :: branches =>
    (condition, Node.mergeList body) :: Node.mergeBranches branches

/-- A body that may be absent, merged. -/
def Node.mergeOption : Option (List Node) → Option (List Node)
  | none => none
  | some body => some (Node.mergeList body)

end

/-- Folds constants and merges texts. -/
def prepare (nodes : List Node) : List Node :=
  Node.mergeList (Node.foldList nodes)

end Hashmark
