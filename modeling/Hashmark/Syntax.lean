/-!
# Template trees

The tree of a template: text, markers with expressions, and blocks. `Expr.callees` and
`Node.exprs` list what a tree calls and which expressions it holds, in the order of the text;
every static check of a template is stated over these two lists.
-/

namespace Hashmark

/-- A constant of the expression language. -/
inductive Literal where
  | null
  | bool (value : Bool)
  | int (value : Int64)
  | float (value : Float)
  | str (value : String)
  deriving DecidableEq, Repr

/-- The operators with one operand. -/
inductive UnaryOp where
  | not
  | neg
  deriving DecidableEq, Repr

/-- The operators with two operands; `concat` joins texts. -/
inductive BinaryOp where
  | or
  | and
  | eq
  | ne
  | lt
  | le
  | gt
  | ge
  | add
  | sub
  | mul
  | div
  | mod
  | concat
  deriving DecidableEq, Repr

/-- An expression of a marker, a condition or a loop. -/
inductive Expr where
  | lit (value : Literal)
  | list (items : List Expr)
  | var (name : String)
  /-- The field of a dictionary, or the item of a list if the name is a number. -/
  | field (base : Expr) (name : String)
  | index (base : Expr) (key : Expr)
  /-- A call of a global function. -/
  | call (name : String) (args : List Expr)
  /-- A value piped through a filter. -/
  | filter (input : Expr) (name : String) (args : List Expr)
  | unary (op : UnaryOp) (operand : Expr)
  | binary (op : BinaryOp) (left right : Expr)
  deriving Repr

/-- A node of a template tree. -/
inductive Node where
  /-- Literal output. -/
  | text (content : String)
  /-- The value of an expression, escaped. -/
  | emit (value : Expr)
  /-- The body of the first branch whose condition holds, or else the last body. -/
  | choose (branches : List (Expr × List Node)) (otherwise : Option (List Node))
  /-- The body once for every item of a list or a dictionary. -/
  | forEach (source : Expr) (key : Option String) (value : String) (body : List Node)
  /-- A named part that a template of the same chain may override. -/
  | block (name : String) (body : List Node)
  /-- The override of a name, or else a default text. -/
  | yield (name : String) (default : Option String)
  /-- Another template in this place; compiling puts its nodes here. -/
  | connect (name : String)
  /-- A comment of the template language, never part of the output. -/
  | comment (content : String)
  deriving Repr

/-- A named part of a template that overrides the blocks and the yields of that name. -/
structure Override where
  name : String
  body : List Node
  deriving Repr

/-- What an expression refers to by a name that must be registered. -/
inductive Callee where
  | function (name : String)
  | filter (name : String)
  deriving DecidableEq, Repr

/-- The name of a callee. -/
def Callee.name : Callee → String
  | .function name | .filter name => name

mutual

/-- The callees of an expression, outermost first and then from left to right. -/
def Expr.callees : Expr → List Callee
  | .lit _ | .var _ => []
  | .list items => Expr.calleesOfList items
  | .field base _ => base.callees
  | .index base key => base.callees ++ key.callees
  | .call name args => .function name :: Expr.calleesOfList args
  | .filter input name args => .filter name :: (input.callees ++ Expr.calleesOfList args)
  | .unary _ operand => operand.callees
  | .binary _ left right => left.callees ++ right.callees

/-- The callees of several expressions. -/
def Expr.calleesOfList : List Expr → List Callee
  | [] => []
  | e :: es => e.callees ++ Expr.calleesOfList es

end

mutual

/-- The expressions that stand in a node, at any depth, in the order of the text. -/
def Node.exprs : Node → List Expr
  | .text _ | .yield _ _ | .connect _ | .comment _ => []
  | .emit value => [value]
  | .choose branches otherwise => Node.exprsOfBranches branches ++ Node.exprsOfOption otherwise
  | .forEach source _ _ body => source :: Node.exprsOfList body
  | .block _ body => Node.exprsOfList body

/-- The expressions of a list of nodes. -/
def Node.exprsOfList : List Node → List Expr
  | [] => []
  | n :: ns => n.exprs ++ Node.exprsOfList ns

/-- The expressions of the branches of a choice, conditions included. -/
def Node.exprsOfBranches : List (Expr × List Node) → List Expr
  | [] => []
  | (condition, body) :: branches =>
    condition :: (Node.exprsOfList body ++ Node.exprsOfBranches branches)

/-- The expressions of a body that may be absent. -/
def Node.exprsOfOption : Option (List Node) → List Expr
  | none => []
  | some body => Node.exprsOfList body

end

end Hashmark
