import Hashmark.Value.Basic

/-!
# Comparing values

Numbers compare by value, a whole number as the nearest double when the other one is a double.
Texts compare by code points, markup or not. Values of different kinds are neither equal nor
ordered.
-/

namespace Hashmark

/-- The order of two doubles; NaN has none. -/
def compareFloats? (x y : Float) : Option Ordering :=
  if x < y then some .lt
  else if x == y then some .eq
  else if y < x then some .gt
  else none

namespace Value

/-- The double that stands for a whole number in mixed arithmetic. -/
def wide (n : Int64) : Float :=
  Float.ofInt n.toInt

mutual

/-- The equality of the expression language; a missing value equals `null`. -/
def equal : Value → Value → Bool
  | .undefined, .undefined | .undefined, .null | .null, .undefined | .null, .null => true
  | .bool a, .bool b => a == b
  | .int a, .int b => a == b
  | .float a, .float b => a == b
  | .int a, .float b => wide a == b
  | .float a, .int b => a == wide b
  | .str a, .str b | .str a, .safe b | .safe a, .str b | .safe a, .safe b => a == b
  | .list a, .list b => equalItems a b
  | .dict a, .dict b => a.length == b.length && equalEntries a b
  | _, _ => false

/-- Whether two lists have equal items in the same order. -/
def equalItems : List Value → List Value → Bool
  | [], [] => true
  | a :: as, b :: bs => a.equal b && equalItems as bs
  | _, _ => false

/-- Whether every entry has an equal counterpart under its name. -/
def equalEntries : List (String × Value) → List (String × Value) → Bool
  | [], _ => true
  | (name, value) :: rest, other =>
    (match Dict.find? other name with
      | some v => value.equal v
      | none => false) && equalEntries rest other

end

/-- The order of two values, if they have one. -/
def compare? : Value → Value → Option Ordering
  | .int a, .int b => some (compare a.toInt b.toInt)
  | .float a, .float b => compareFloats? a b
  | .int a, .float b => compareFloats? (wide a) b
  | .float a, .int b => compareFloats? a (wide b)
  | .str a, .str b | .str a, .safe b | .safe a, .str b | .safe a, .safe b => some (compare a b)
  | _, _ => none

end Value

end Hashmark
