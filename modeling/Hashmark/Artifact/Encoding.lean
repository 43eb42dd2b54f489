import Hashmark.Artifact.Basic
import Hashmark.Json.Fields

/-!
# The written form of artifacts

An artifact is stored as one JSON text without blanks. Nodes and expressions are alternatives, each
under its own name, and records have their fields in a fixed order.
-/

namespace Hashmark

open Json (tagged record optional)

/-- The written form of a constant. -/
def Literal.toJson : Literal → Json
  | .null => .string "Null"
  | .bool b => tagged "Bool" (.bool b)
  | .int n => tagged "Int" (Json.ofInt n.toInt)
  | .float x => tagged "Float" (Json.ofFloat x)
  | .str s => tagged "Str" (.string s)

/-- The written name of an operator with one operand. -/
def UnaryOp.label : UnaryOp → String
  | .not => "Not"
  | .neg => "Neg"

/-- The written name of an operator with two operands. -/
def BinaryOp.label : BinaryOp → String
  | .or => "Or"
  | .and => "And"
  | .eq => "Eq"
  | .ne => "Ne"
  | .lt => "Lt"
  | .le => "Le"
  | .gt => "Gt"
  | .ge => "Ge"
  | .add => "Add"
  | .sub => "Sub"
  | .mul => "Mul"
  | .div => "Div"
  | .mod => "Mod"
  | .concat => "Concat"

mutual

/-- The written form of an expression. -/
def Expr.toJson : Expr → Json
  | .lit value => tagged "Literal" value.toJson
  | .list items => tagged "List" (.array (Expr.toJsonList items))
  | .var name => tagged "Var" (.string name)
  | .field base name => tagged "Field" (record [("base", base.toJson), ("field", .string name)])
  | .index base key => tagged "Index" (record [("base", base.toJson), ("index", key.toJson)])
  | .call name args =>
    tagged "Call" (record [("name", .string name), ("args", .array (Expr.toJsonList args))])
  | .filter input name args =>
    tagged "Filter" (record
      [("expr", input.toJson), ("name", .string name), ("args", .array (Expr.toJsonList args))])
  | .unary op operand =>
    tagged "Unary" (record [("op", .string op.label), ("expr", operand.toJson)])
  | .binary op left right =>
    tagged "Binary" (record
      [("op", .string op.label), ("left", left.toJson), ("right", right.toJson)])

/-- The written forms of several expressions. -/
def Expr.toJsonList : List Expr → List Json
  | [] => []
  | e :: es => e.toJson :: Expr.toJsonList es

end

mutual

/-- The written form of a node. -/
def Node.toJson : Node → Json
  | .text content => tagged "Text" (.string content)
  | .emit value => tagged "Emit" value.toJson
  | .choose branches otherwise =>
    tagged "If" (record
      [("branches", .array (Node.toJsonBranches branches)),
       ("otherwise", Node.toJsonOption otherwise)])
  | .forEach source key value body =>
    tagged "Foreach" (record
      [("iterable", source.toJson), ("key", optional .string key), ("value", .string value),
       ("body", .array (Node.toJsonList body))])
  | .block name body =>
    tagged "Section" (record [("name", .string name), ("body", .array (Node.toJsonList body))])
  | .yield name default =>
    tagged "Yield" (record [("name", .string name), ("default", optional .string default)])
  | .connect name => tagged "Connect" (.string name)
  | .comment content => tagged "Comment" (.string content)

/-- The written forms of several nodes. -/
def Node.toJsonList : List Node → List Json
  | [] => []
  | n :: ns => n.toJson :: Node.toJsonList ns

/-- The written forms of the branches of a choice. -/
def Node.toJsonBranches : List (Expr × List Node) → List Json
  | [] => []
  | (condition, body) :: branches =>
    record [("condition", condition.toJson), ("body", .array (Node.toJsonList body))]
      :: Node.toJsonBranches branches

/-- The written form of a body that may be absent. -/
def Node.toJsonOption : Option (List Node) → Json
  | none => .null
  | some body => .array (Node.toJsonList body)

end

/-- The written form of an override. -/
def Override.toJson (o : Override) : Json :=
  record [("name", .string o.name), ("body", .array (Node.toJsonList o.body))]

/-- The written form of a time of modification. -/
def Timestamp.toJson (t : Timestamp) : Json :=
  record [("secs", Json.ofInt t.seconds.toNat), ("nanos", Json.ofInt t.nanoseconds.toNat)]

/-- The written form of a dependency. -/
def Dependency.toJson (d : Dependency) : Json :=
  record [("path", .string d.path.text), ("modified", d.modified.toJson)]

namespace Artifact

/-- The written form of an artifact. -/
def toJson (a : Artifact) : Json :=
  record
    [("version", Json.ofInt a.version.toNat), ("name", .string a.name),
     ("sections", .array (a.sections.map Override.toJson)),
     ("body", .array (Node.toJsonList a.body)),
     ("dependencies", .array (a.dependencies.map Dependency.toJson))]

/-- The text that an artifact is stored as. -/
def encode (a : Artifact) : String :=
  a.toJson.text

end Artifact

end Hashmark
