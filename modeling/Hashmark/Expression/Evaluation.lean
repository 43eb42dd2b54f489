import Hashmark.Callable.Policy
import Hashmark.Scopes
import Hashmark.Syntax
import Hashmark.Value.Arithmetic

/-!
# Evaluation of expressions

`Expr.eval` gives the value of an expression under the tables of callables and the variables in
view. Nothing fails but a callable: operators on operands that do not fit, and look-ups of what is
not there, give `undefined`. The operands of `and` and `or` decide from the left; all other operands
and arguments are evaluated in the order of the text.
-/

namespace Hashmark

/-- A callable that failed, and its message. -/
structure CallFault where
  callable : String
  message : String
  deriving DecidableEq, Repr

/-- The value of a constant. -/
def Literal.value : Literal → Value
  | .null => .null
  | .bool b => .bool b
  | .int n => .int n
  | .float x => .float x
  | .str s => .str s

/-- The value of an operator with one operand. -/
def UnaryOp.apply : UnaryOp → Value → Value
  | .not, v => .bool (!v.isTruthy)
  | .neg, v => v.neg

namespace BinaryOp

/-- Whether the left operand alone is the value of `and` or `or`. -/
def decidedBy (op : BinaryOp) (left : Value) : Bool :=
  match op with
  | .and => !left.isTruthy
  | .or => left.isTruthy
  | _ => false

/-- Whether two values have an order, and one that passes the test. -/
def ordered (left right : Value) (test : Ordering → Bool) : Value :=
  .bool ((left.compare? right).any test)

/-- The value of an operator with two operands. -/
def apply (op : BinaryOp) (left right : Value) : Value :=
  match op with
  | .and => if left.isTruthy then right else left
  | .or => if left.isTruthy then left else right
  | .eq => .bool (left.equal right)
  | .ne => .bool (!left.equal right)
  | .lt => ordered left right Ordering.isLT
  | .le => ordered left right Ordering.isLE
  | .gt => ordered left right Ordering.isGT
  | .ge => ordered left right Ordering.isGE
  | .add => left.add right
  | .sub => left.sub right
  | .mul => left.mul right
  | .div => left.div right
  | .mod => left.mod right
  | .concat => left.concat right

end BinaryOp

namespace Callables

/-- Calls a function, if it may be called. -/
def call (c : Callables) (name : String) (args : List Value) : Except CallFault Value :=
  match Dict.find? c.functions name with
  | some f =>
    if isDenied name then .error ⟨name, "function is not available"⟩
    else (f args).mapError (CallFault.mk name)
  | none => .error ⟨name, "function is not available"⟩

/-- Applies a filter, if it may be applied. -/
def pipe (c : Callables) (name : String) (input : Value) (args : List Value) :
    Except CallFault Value :=
  match Dict.find? c.filters name with
  | some f =>
    if isDenied name then .error ⟨name, "filter is not available"⟩
    else (f input args).mapError (CallFault.mk name)
  | none => .error ⟨name, "filter is not available"⟩

end Callables

mutual

/-- The value of an expression. -/
def Expr.eval (c : Callables) (s : Scopes) : Expr → Except CallFault Value
  | .lit constant => .ok constant.value
  | .list items => do
    let values ← Expr.evalList c s items
    pure (.list values)
  | .var name => .ok ((s.get? name).getD .undefined)
  | .field base name => do
    let v ← base.eval c s
    pure (v.field name)
  | .index base key => do
    let v ← base.eval c s
    let k ← key.eval c s
    pure (v.item k)
  | .call name args => do
    let values ← Expr.evalList c s args
    c.call name values
  | .filter input name args => do
    let v ← input.eval c s
    let values ← Expr.evalList c s args
    c.pipe name v values
  | .unary op operand => do
    let v ← operand.eval c s
    pure (op.apply v)
  | .binary op left right => do
    let v ← left.eval c s
    if op.decidedBy v then pure v
    else do
      let w ← right.eval c s
      pure (op.apply v w)

/-- The values of several expressions, up to the first that fails. -/
def Expr.evalList (c : Callables) (s : Scopes) : List Expr → Except CallFault (List Value)
  | [] => .ok []
  | e :: es => do
    let v ← e.eval c s
    let values ← Expr.evalList c s es
    pure (v :: values)

end

end Hashmark
