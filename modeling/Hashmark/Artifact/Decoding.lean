import Hashmark.Artifact.Encoding
import Hashmark.Json.Reader

/-!
# Reading stored artifacts

`Artifact.decode?` reads what `Artifact.encode` writes, and other ways to write the same: blanks,
members in another order, members that mean nothing, and records as arrays. Containers nest at most
`Json.nestingLimit` deep. A text of another version does not count as an artifact.
-/

namespace Hashmark

open Json (enter? asString? asItems? asRecord? asOptional? asTagged?)

/-- Reads a constant. -/
def Literal.ofJson? (room : Nat) : Json → Option Literal
  | .string "Null" => some .null
  | j => do
    let _ ← enter? room
    let (tag, data) ← asTagged? j
    match tag, data with
    | "Null", .null => some .null
    | "Bool", data => data.asBool?.map .bool
    | "Int", data =>
      (data.asInt? Int64.minValue.toInt Int64.maxValue.toInt).map fun n => .int (Int64.ofInt n)
    | "Float", data => data.asFloat?.map .float
    | "Str", data => data.asString?.map .str
    | _, _ => none

/-- Reads the name of an alternative with which nothing goes. -/
def label? (room : Nat) : Json → Option String
  | .string label => some label
  | .object [(label, .null)] => do
    let _ ← enter? room
    some label
  | _ => none

/-- Reads an operator with one operand. -/
def UnaryOp.ofJson? (room : Nat) (j : Json) : Option UnaryOp := do
  let label ← label? room j
  [UnaryOp.not, .neg].find? (·.label = label)

/-- Reads an operator with two operands. -/
def BinaryOp.ofJson? (room : Nat) (j : Json) : Option BinaryOp := do
  let label ← label? room j
  [BinaryOp.or, .and, .eq, .ne, .lt, .le, .gt, .ge, .add, .sub, .mul, .div, .mod, .concat].find?
    (·.label = label)

/-- Reads an expression. -/
def Expr.ofJson? (room : Nat) (j : Json) : Option Expr := do
  let ⟨inside, _⟩ ← enter? room
  let (tag, data) ← asTagged? j
  match tag with
  | "Literal" => (Literal.ofJson? inside data).map .lit
  | "Var" => (asString? data).map .var
  | "List" =>
    let ⟨deeper, _⟩ ← enter? inside
    let items ← (← asItems? data).mapM (Expr.ofJson? deeper)
    pure (.list items)
  | "Field" =>
    let ⟨deeper, _⟩ ← enter? inside
    match ← asRecord? ["base", "field"] data with
    | [some base, some name] => pure (.field (← Expr.ofJson? deeper base) (← asString? name))
    | _ => none
  | "Index" =>
    let ⟨deeper, _⟩ ← enter? inside
    match ← asRecord? ["base", "index"] data with
    | [some base, some key] =>
      pure (.index (← Expr.ofJson? deeper base) (← Expr.ofJson? deeper key))
    | _ => none
  | "Call" =>
    let ⟨deeper, _⟩ ← enter? inside
    match ← asRecord? ["name", "args"] data with
    | [some name, some args] =>
      let ⟨innermost, _⟩ ← enter? deeper
      let args ← (← asItems? args).mapM (Expr.ofJson? innermost)
      pure (.call (← asString? name) args)
    | _ => none
  | "Filter" =>
    let ⟨deeper, _⟩ ← enter? inside
    match ← asRecord? ["expr", "name", "args"] data with
    | [some input, some name, some args] =>
      let ⟨innermost, _⟩ ← enter? deeper
      let args ← (← asItems? args).mapM (Expr.ofJson? innermost)
      pure (.filter (← Expr.ofJson? deeper input) (← asString? name) args)
    | _ => none
  | "Unary" =>
    let ⟨deeper, _⟩ ← enter? inside
    match ← asRecord? ["op", "expr"] data with
    | [some op, some operand] =>
      pure (.unary (← UnaryOp.ofJson? deeper op) (← Expr.ofJson? deeper operand))
    | _ => none
  | "Binary" =>
    let ⟨deeper, _⟩ ← enter? inside
    match ← asRecord? ["op", "left", "right"] data with
    | [some op, some left, some right] =>
      pure (.binary (← BinaryOp.ofJson? deeper op) (← Expr.ofJson? deeper left)
        (← Expr.ofJson? deeper right))
    | _ => none
  | _ => none
termination_by room

/-- A field that may be missing, or written as `null`. -/
def optionalField? (read : Json → Option α) : Option Json → Option (Option α)
  | none => some none
  | some j => asOptional? read j

/-- Reads a node. -/
def Node.ofJson? (room : Nat) (j : Json) : Option Node := do
  let ⟨inside, _⟩ ← enter? room
  let (tag, data) ← asTagged? j
  match tag with
  | "Text" => (asString? data).map .text
  | "Connect" => (asString? data).map .connect
  | "Comment" => (asString? data).map .comment
  | "Emit" => (Expr.ofJson? inside data).map .emit
  | "If" =>
    let ⟨deeper, _⟩ ← enter? inside
    match ← asRecord? ["branches", "otherwise"] data with
    | [some branches, otherwise] =>
      let ⟨listed, _⟩ ← enter? deeper
      let branches ← (← asItems? branches).mapM fun branch => do
        let ⟨branchInside, _⟩ ← enter? listed
        match ← asRecord? ["condition", "body"] branch with
        | [some condition, some body] =>
          let ⟨innermost, _⟩ ← enter? branchInside
          let body ← (← asItems? body).mapM (Node.ofJson? innermost)
          pure (← Expr.ofJson? branchInside condition, body)
        | _ => none
      let otherwise ← optionalField? (fun body => do
        (← asItems? body).mapM (Node.ofJson? listed)) otherwise
      pure (.choose branches otherwise)
    | _ => none
  | "Foreach" =>
    let ⟨deeper, _⟩ ← enter? inside
    match ← asRecord? ["iterable", "key", "value", "body"] data with
    | [some source, key, some value, some body] =>
      let ⟨innermost, _⟩ ← enter? deeper
      let body ← (← asItems? body).mapM (Node.ofJson? innermost)
      pure (.forEach (← Expr.ofJson? deeper source) (← optionalField? asString? key)
        (← asString? value) body)
    | _ => none
  | "Section" =>
    let ⟨deeper, _⟩ ← enter? inside
    match ← asRecord? ["name", "body"] data with
    | [some name, some body] =>
      let ⟨innermost, _⟩ ← enter? deeper
      let body ← (← asItems? body).mapM (Node.ofJson? innermost)
      pure (.block (← asString? name) body)
    | _ => none
  | "Yield" =>
    let _ ← enter? inside
    match ← asRecord? ["name", "default"] data with
    | [some name, default] =>
      pure (.yield (← asString? name) (← optionalField? asString? default))
    | _ => none
  | _ => none
termination_by room

/-- Reads an array of nodes. -/
def Node.listOfJson? (room : Nat) (j : Json) : Option (List Node) := do
  let ⟨inside, _⟩ ← enter? room
  (← asItems? j).mapM (Node.ofJson? inside)

/-- Reads an override. -/
def Override.ofJson? (room : Nat) (j : Json) : Option Override := do
  let ⟨inside, _⟩ ← enter? room
  match ← asRecord? ["name", "body"] j with
  | [some name, some body] => pure ⟨← asString? name, ← Node.listOfJson? inside body⟩
  | _ => none

/-- Reads a time of modification. -/
def Timestamp.ofJson? (j : Json) : Option Timestamp := do
  match ← asRecord? ["secs", "nanos"] j with
  | [some seconds, some nanoseconds] =>
    let seconds ← seconds.asNat? UInt64.size
    let nanoseconds ← nanoseconds.asNat? UInt32.size
    pure ⟨UInt64.ofNat seconds, UInt32.ofNat nanoseconds⟩
  | _ => none

/-- Reads a dependency. -/
def Dependency.ofJson? (j : Json) : Option Dependency := do
  match ← asRecord? ["path", "modified"] j with
  | [some path, some modified] => pure ⟨⟨← asString? path⟩, ← Timestamp.ofJson? modified⟩
  | _ => none

namespace Artifact

/-- Reads an artifact of any version. -/
def ofJson? (j : Json) : Option Artifact := do
  let inside := Json.nestingLimit - 1
  match ← asRecord? ["version", "name", "sections", "body", "dependencies"] j with
  | [some version, some name, some sections, some body, some dependencies] =>
    let version ← version.asNat? UInt32.size
    let sections ← (← asItems? sections).mapM (Override.ofJson? (inside - 1))
    let body ← Node.listOfJson? inside body
    let dependencies ← (← asItems? dependencies).mapM Dependency.ofJson?
    pure ⟨UInt32.ofNat version, ← asString? name, sections, body, dependencies⟩
  | _ => none

/-- The artifact that a text stores, if it is one of the current version. -/
def decode? (text : String) : Option Artifact := do
  let a ← ofJson? (← Json.read? text)
  if a.version = currentVersion then some a else none

end Artifact

end Hashmark
