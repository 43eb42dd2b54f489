import Hashmark.Value.Order
import Hashmark.Number.Dyadic

/-!
# Arithmetic

The binary operators that need both operands. Whole numbers are 64-bit words that wrap around; a
double makes the result a double; operands that do not fit give `undefined`.
-/

namespace Hashmark.Value

/-- An operation on two numbers: on words if both are whole, on doubles otherwise. -/
def arithmetic (onInts : Int64 → Int64 → Int64) (onFloats : Float → Float → Float) :
    Value → Value → Value
  | .int a, .int b => .int (onInts a b)
  | .float a, .float b => .float (onFloats a b)
  | .int a, .float b => .float (onFloats (wide a) b)
  | .float a, .int b => .float (onFloats a (wide b))
  | _, _ => .undefined

/-- The sum of numbers, and the concatenation of two texts or two lists. -/
def add : Value → Value → Value
  | .str a, .str b => .str (a ++ b)
  | .list a, .list b => .list (a ++ b)
  | a, b => arithmetic (· + ·) (· + ·) a b

/-- The difference of numbers. -/
def sub : Value → Value → Value :=
  arithmetic (· - ·) (· - ·)

/-- The product of numbers. -/
def mul : Value → Value → Value :=
  arithmetic (· * ·) (· * ·)

/-- The quotient of numbers: whole if the division of whole numbers leaves no remainder. There is
no quotient by zero. -/
def div : Value → Value → Value
  | .int a, .int b =>
    if b = 0 then .undefined
    else if a % b = 0 then .int (a / b)
    else .float (wide a / wide b)
  | .float a, .float b => if b == 0 then .undefined else .float (a / b)
  | .int a, .float b => if b == 0 then .undefined else .float (wide a / b)
  | .float a, .int b => if b = 0 then .undefined else .float (a / wide b)
  | _, _ => .undefined

/-- The remainder of the division truncated to an integer, for two numbers of one kind. -/
def mod : Value → Value → Value
  | .int a, .int b => if b = 0 then .undefined else .int (a % b)
  | .float a, .float b => if b == 0 then .undefined else .float (Number.remainder a b)
  | _, _ => .undefined

/-- The texts of two values one after the other. -/
def concat (a b : Value) : Value :=
  .str (a.text ++ b.text)

/-- The number with the opposite sign. -/
def neg : Value → Value
  | .int n => .int (-n)
  | .float x => .float (-x)
  | _ => .undefined

end Hashmark.Value
