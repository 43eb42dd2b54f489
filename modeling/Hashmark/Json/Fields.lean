import Hashmark.Json.Basic

/-!
# Structured data in JSON

How records and alternatives are written in JSON, and how they are read from a value. A record is an
object with the names of its fields, or an array of the values of all its fields. An alternative is
an object with one member, whose name says which one it is, or the name alone if nothing goes with
it.

Readers get the room that is left: how many containers may still be nested inside each other.
-/

namespace Hashmark.Json

/-- A record, with its fields in order. -/
def record (fields : List (String × Json)) : Json :=
  .object fields

/-- An alternative with its data. -/
def tagged (tag : String) (data : Json) : Json :=
  .object [(tag, data)]

/-- Data that may be absent. -/
def optional (form : α → Json) : Option α → Json
  | none => .null
  | some a => form a

/-! ### Reading -/

/-- The room inside a container, if there is room for one. -/
def enter? (room : Nat) : Option { inside : Nat // inside < room } :=
  match room with
  | 0 => none
  | inside + 1 => some ⟨inside, Nat.lt_succ_self inside⟩

/-- A text. -/
def asString? : Json → Option String
  | .string s => some s
  | _ => none

/-- A truth value. -/
def asBool? : Json → Option Bool
  | .bool b => some b
  | _ => none

/-- A whole number from `least` to `greatest`. -/
def asInt? (least greatest : Int) : Json → Option Int
  | .number (.integer n) => if least ≤ n ∧ n ≤ greatest then some n else none
  | _ => none

/-- A natural number below a bound. -/
def asNat? (bound : Nat) (j : Json) : Option Nat :=
  (asInt? 0 (bound - 1) j).map Int.toNat

/-- A double; whole numbers count as doubles. -/
def asFloat? : Json → Option Float
  | .number (.integer n) => some (Float.ofInt n)
  | .number (.real x) => some x
  | _ => none

/-- The items of an array. -/
def asItems? : Json → Option (List Json)
  | .array items => some items
  | _ => none

/-- Data that may be written as `null`. -/
def asOptional? (read : Json → Option α) : Json → Option (Option α)
  | .null => some none
  | j => (read j).map some

/-- The tag and the data of an alternative written as an object. -/
def asTagged? : Json → Option (String × Json)
  | .object [(tag, data)] => some (tag, data)
  | _ => none

/-- The values under a name, of which there is at most one. -/
def memberOnce? (members : List (String × Json)) (name : String) : Option (Option Json) :=
  match members.filter (·.1 = name) with
  | [] => some none
  | [(_, value)] => some (some value)
  | _ => none

/-- The values of the fields of a record, in the order of `names`. Other members of an object do not
matter; a field of it may be missing. An array has a value for every field. -/
def asRecord? (names : List String) : Json → Option (List (Option Json))
  | .object members => names.mapM (memberOnce? members)
  | .array items => if items.length = names.length then some (items.map some) else none
  | _ => none

/-- The values of the fields of a record of which each may be missing. An object has no other
members than these; an array may stop early. -/
def asPartialRecord? (names : List String) : Json → Option (List (Option Json))
  | .object members =>
    if members.all fun (name, _) => names.contains name then
      names.mapM (memberOnce? members)
    else none
  | .array items =>
    if items.length ≤ names.length then
      some (items.map some ++ List.replicate (names.length - items.length) none)
    else none
  | _ => none

/-- The members of an object whose values can be read; a name may repeat. -/
def asMembers? (read : Json → Option α) : Json → Option (List (String × α))
  | .object members => members.mapM fun (name, value) => (read value).map (name, ·)
  | _ => none

mutual

/-- Whether every part of a value can be read within a room. -/
def isReadable (room : Nat) : Json → Bool
  | .unreadable => false
  | .array items => 0 < room && areReadable (room - 1) items
  | .object members => 0 < room && membersAreReadable (room - 1) members
  | .null | .bool _ | .number _ | .string _ => true

/-- Whether several values can be read. -/
def areReadable (room : Nat) : List Json → Bool
  | [] => true
  | item :: items => item.isReadable room && areReadable room items

/-- Whether the values of some members can be read. -/
def membersAreReadable (room : Nat) : List (String × Json) → Bool
  | [] => true
  | (_, value) :: members => value.isReadable room && membersAreReadable room members

end

/-- The number of containers in a text that may be nested inside each other. -/
def nestingLimit : Nat := 127

end Hashmark.Json
