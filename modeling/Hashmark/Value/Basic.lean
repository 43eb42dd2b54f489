import Hashmark.Dict
import Hashmark.Json.Basic

/-!
# Values

The values that expressions compute with: the data of a page, and texts that are already escaped.
Looking up what is not there gives `undefined`, never an error.
-/

namespace Hashmark

/-- A value of the expression language. -/
inductive Value where
  /-- What a variable, a field or an item that is not there gives. -/
  | undefined
  | null
  | bool (value : Bool)
  | int (value : Int64)
  | float (value : Float)
  | str (value : String)
  | list (items : List Value)
  /-- The entries in ascending order of their names. -/
  | dict (entries : List (String × Value))
  /-- A text that is markup already and is not escaped again. -/
  | safe (markup : String)
  deriving Repr, Inhabited

namespace Value

/-- Whether a condition with this value holds. -/
def isTruthy : Value → Bool
  | .undefined | .null => false
  | .bool b => b
  | .int n => n != 0
  | .float x => x != 0
  | .str s | .safe s => s != ""
  | .list items => !items.isEmpty
  | .dict entries => !entries.isEmpty

/-- Whether the value is `undefined`. -/
def isUndefined : Value → Bool
  | .undefined => true
  | _ => false

mutual

/-- The JSON form of a value. -/
def toJson : Value → Json
  | .undefined | .null => .null
  | .bool b => .bool b
  | .int n => Json.ofInt n.toInt
  | .float x => Json.ofFloat x
  | .str s | .safe s => .string s
  | .list items => .array (toJsonItems items)
  | .dict entries => .object (toJsonMembers entries)

/-- The JSON forms of the items of a list. -/
def toJsonItems : List Value → List Json
  | [] => []
  | item :: items => item.toJson :: toJsonItems items

/-- The JSON forms of the entries of a dictionary. -/
def toJsonMembers : List (String × Value) → List (String × Json)
  | [] => []
  | (name, value) :: entries => (name, value.toJson) :: toJsonMembers entries

end

/-- The plain text of a value; lists and dictionaries are written as JSON. -/
def text : Value → String
  | .undefined | .null => ""
  | .bool b => if b then "true" else "false"
  | .int n => toString n.toInt
  | .float x => Number.plainText x
  | .str s | .safe s => s
  | .list items => (Value.list items).toJson.text
  | .dict entries => (Value.dict entries).toJson.text

/-- The value of a number in JSON data: 64-bit integers stay whole, the others become doubles. -/
def ofJsonNumber : JsonNumber → Value
  | .integer n =>
    if Int64.minValue.toInt ≤ n ∧ n ≤ Int64.maxValue.toInt then .int (Int64.ofInt n)
    else .float (Float.ofInt n)
  | .real x => .float x

mutual

/-- The value of JSON data. Of two members with one name the later one counts. -/
def ofJson : Json → Value
  | .null | .unreadable => .null
  | .bool b => .bool b
  | .number n => ofJsonNumber n
  | .string s => .str s
  | .array items => .list (ofJsonItems items)
  | .object members => .dict (Dict.ofPairs (ofJsonMembers members))

/-- The values of the items of an array. -/
def ofJsonItems : List Json → List Value
  | [] => []
  | item :: items => ofJson item :: ofJsonItems items

/-- The values of the members of an object. -/
def ofJsonMembers : List (String × Json) → List (String × Value)
  | [] => []
  | (name, value) :: members => (name, ofJson value) :: ofJsonMembers members

end

/-! ### Fields and items -/

/-- The number that a field name stands for: decimal digits, with `+` allowed in front. -/
def fieldNumber? (name : String) : Option Nat :=
  let digits := match name.toList with
    | '+' :: cs => cs
    | cs => cs
  if digits.isEmpty || !digits.all Char.isDigit then none
  else some (digits.foldl (fun n c => 10 * n + (c.toNat - 48)) 0)

/-- The field of a dictionary, or the item of a list under a number. -/
def field (v : Value) (name : String) : Value :=
  match v with
  | .dict entries => (Dict.find? entries name).getD .undefined
  | .list items =>
    match fieldNumber? name with
    | some i => items[i]?.getD .undefined
    | none => .undefined
  | _ => .undefined

/-- The position that an index means in a sequence of `length` items; a negative index counts from
the end. -/
def position? (i : Int64) (length : Nat) : Option Nat :=
  if i < 0 then
    if i.toInt.natAbs ≤ length then some (length - i.toInt.natAbs) else none
  else some i.toInt.toNat

/-- The item of a list or the character of a text at an index, or the entry of a dictionary under
the text of any value. -/
def item (v : Value) (index : Value) : Value :=
  match v, index with
  | .list items, .int i =>
    match position? i items.length with
    | some n => items[n]?.getD .undefined
    | none => .undefined
  | .dict entries, key => (Dict.find? entries key.text).getD .undefined
  | .str s, .int i =>
    let cs := s.toList
    match position? i cs.length with
    | some n => (cs[n]?.map fun c => Value.str (String.singleton c)).getD .undefined
    | none => .undefined
  | _, _ => .undefined

end Value

end Hashmark
