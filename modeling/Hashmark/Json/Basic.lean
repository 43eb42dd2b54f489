import Hashmark.Number.Layout

/-!
# JSON values and their text

A JSON value keeps the members of an object in the order of the text, repeated names included:
what a repeated name means is up to whoever reads the value. `Json.text` writes a value without
any blanks.
-/

namespace Hashmark

/-- A number of a JSON text: a whole number in the 64-bit range, or a double. -/
inductive JsonNumber where
  | integer (value : Int)
  | real (value : Float)
  deriving DecidableEq, Repr

/-- A JSON value. -/
inductive Json where
  | null
  | bool (value : Bool)
  | number (value : JsonNumber)
  | string (value : String)
  | array (items : List Json)
  | object (members : List (String × Json))
  /-- Well-formed text without a value: a number beyond the doubles, or a string or an object with
  an unpaired surrogate. It may stand only where a value is skipped. -/
  | unreadable
  deriving Repr, Inhabited

namespace Json

/-- A whole number. -/
def ofInt (n : Int) : Json :=
  .number (.integer n)

/-- A double; JSON has no infinities and no NaN, `null` stands for them. -/
def ofFloat (x : Float) : Json :=
  if x.isFinite then .number (.real x) else .null

/-! ### Writing -/

/-- A character inside a quoted string. -/
def escapedChar (c : Char) : List Char :=
  match c with
  | '"' => ['\\', '"']
  | '\\' => ['\\', '\\']
  | '\x08' => ['\\', 'b']
  | '\x0c' => ['\\', 'f']
  | '\n' => ['\\', 'n']
  | '\r' => ['\\', 'r']
  | '\t' => ['\\', 't']
  | c =>
    if c.toNat < 0x20 then
      ['\\', 'u', '0', '0', Nat.digitChar (c.toNat / 16), Nat.digitChar (c.toNat % 16)]
    else [c]

/-- A quoted string. -/
def quoted (s : String) : List Char :=
  '"' :: (s.toList.flatMap escapedChar ++ ['"'])

end Json

/-- The characters of a number. -/
def JsonNumber.chars : JsonNumber → List Char
  | .integer n => (toString n).toList
  | .real x =>
    match Number.Layout.json.text? x with
    | some text => text.toList
    | none => "null".toList

namespace Json

mutual

/-- The characters of a value. -/
def chars : Json → List Char
  | .null | .unreadable => "null".toList
  | .bool true => "true".toList
  | .bool false => "false".toList
  | .number n => n.chars
  | .string s => quoted s
  | .array items => '[' :: (itemChars items ++ [']'])
  | .object members => '{' :: (memberChars members ++ ['}'])

/-- The items of an array, separated by commas. -/
def itemChars : List Json → List Char
  | [] => []
  | [item] => item.chars
  | item :: next :: rest => item.chars ++ ',' :: itemChars (next :: rest)

/-- The members of an object, separated by commas. -/
def memberChars : List (String × Json) → List Char
  | [] => []
  | [(name, value)] => quoted name ++ ':' :: value.chars
  | (name, value) :: next :: rest =>
    quoted name ++ ':' :: (value.chars ++ ',' :: memberChars (next :: rest))

end

/-- The text of a value. -/
def text (j : Json) : String :=
  String.ofList j.chars

end Json

end Hashmark
