import Hashmark.Json.Basic
import Hashmark.Number.Numeral

/-!
# Reading JSON texts

`Json.read?` accepts the texts of RFC grammar and nothing else: one value, with blanks around and
between its tokens. The readers below take characters from the front of a list and return what is
left.
-/

namespace Hashmark.Json

/-- The blanks of JSON. -/
def isSpace (c : Char) : Bool :=
  c == ' ' || c == '\t' || c == '\n' || c == '\r'

/-- The text after its leading blanks. -/
def skipSpace (cs : List Char) : List Char :=
  cs.dropWhile isSpace

/-! ### Strings -/

/-- A piece of a string: a character, or a UTF-16 code unit written with `\u`. -/
inductive Piece where
  | char (c : Char)
  | codeUnit (n : Nat)

/-- The value of a hexadecimal digit. -/
def hexDigit? (c : Char) : Option Nat :=
  if c.isDigit then some (c.toNat - 48)
  else if 'a' ≤ c ∧ c ≤ 'f' then some (c.toNat - 87)
  else if 'A' ≤ c ∧ c ≤ 'F' then some (c.toNat - 55)
  else none

/-- The code unit written by four hexadecimal digits. -/
def codeUnit? (a b c d : Char) : Option Nat := do
  let a ← hexDigit? a
  let b ← hexDigit? b
  let c ← hexDigit? c
  let d ← hexDigit? d
  pure (((a * 16 + b) * 16 + c) * 16 + d)

/-- The character that an escape of one letter stands for. -/
def escape? (c : Char) : Option Char :=
  match c with
  | '"' => some '"'
  | '\\' => some '\\'
  | '/' => some '/'
  | 'b' => some '\x08'
  | 'f' => some '\x0c'
  | 'n' => some '\n'
  | 'r' => some '\r'
  | 't' => some '\t'
  | _ => none

/-- The pieces of a string up to its closing quote, which is consumed. -/
def readPieces : List Char → Option (List Piece × List Char)
  | '"' :: rest => some ([], rest)
  | '\\' :: 'u' :: a :: b :: c :: d :: rest => do
    let unit ← codeUnit? a b c d
    let (pieces, rest) ← readPieces rest
    pure (.codeUnit unit :: pieces, rest)
  | '\\' :: c :: rest => do
    let c ← escape? c
    let (pieces, rest) ← readPieces rest
    pure (.char c :: pieces, rest)
  | c :: rest =>
    if c.toNat < 0x20 then none
    else do
      let (pieces, rest) ← readPieces rest
      pure (.char c :: pieces, rest)
  | [] => none

/-- The characters of a list of pieces. Surrogates count in pairs only. -/
def joinPieces : List Piece → Option (List Char)
  | [] => some []
  | .char c :: rest => (joinPieces rest).map (c :: ·)
  | .codeUnit high :: .codeUnit low :: rest =>
    if 0xD800 ≤ high ∧ high < 0xDC00 ∧ 0xDC00 ≤ low ∧ low < 0xE000 then
      (joinPieces rest).map (Char.ofNat (0x10000 + (high - 0xD800) * 0x400 + (low - 0xDC00)) :: ·)
    else if 0xD800 ≤ high ∧ high < 0xE000 then none
    else (joinPieces (.codeUnit low :: rest)).map (Char.ofNat high :: ·)
  | .codeUnit n :: rest =>
    if 0xD800 ≤ n ∧ n < 0xE000 then none
    else (joinPieces rest).map (Char.ofNat n :: ·)

/-- A string after its opening quote: its text, if it has one, and the text after it. -/
def readString (cs : List Char) : Option (Option String × List Char) := do
  let (pieces, rest) ← readPieces cs
  pure ((joinPieces pieces).map String.ofList, rest)

/-! ### Numbers -/

/-- The digits of the fraction after a point, which must be there. -/
def readFraction : List Char → Option (List Nat × List Char)
  | '.' :: cs =>
    match Number.takeDigits cs with
    | ([], _) => none
    | (ds, rest) => some (ds, rest)
  | cs => some ([], cs)

/-- The exponent after its letter. -/
def readExponent (cs : List Char) : Option (Int × List Char) :=
  let (negative, cs) := match cs with
    | '-' :: cs => (true, cs)
    | '+' :: cs => (false, cs)
    | cs => (false, cs)
  match Number.takeDigits cs with
  | ([], _) => none
  | (ds, rest) =>
    let n : Int := Number.foldDigits 0 ds
    some (if negative then -n else n, rest)

/-- The value of a numeral that has neither fraction nor exponent: exact in the 64-bit range. -/
def ofWhole (n : Number.Numeral) : Json :=
  let magnitude := Number.foldDigits 0 n.whole
  if !n.negative && magnitude < UInt64.size then ofInt magnitude
  else if n.negative && 0 < magnitude && magnitude ≤ UInt64.size / 2 then ofInt (-magnitude)
  else match n.scaled? with
    | some x => .number (.real x)
    | none => .unreadable

/-- The value of a numeral with a fraction or an exponent. -/
def ofScaled (n : Number.Numeral) : Json :=
  match n.scaled? with
  | some x => .number (.real x)
  | none => .unreadable

/-- A number after its sign. The whole part has no leading zeros. -/
def readNumber (negative : Bool) (cs : List Char) : Option (Json × List Char) :=
  match Number.takeDigits cs with
  | ([], _) => none
  | (0 :: _ :: _, _) => none
  | (whole, rest) => do
    let (fraction, rest) ← readFraction rest
    match rest with
    | 'e' :: tail | 'E' :: tail =>
      let (exponent, rest) ← readExponent tail
      pure (ofScaled ⟨negative, whole, fraction, exponent⟩, rest)
    | rest =>
      if fraction.isEmpty then pure (ofWhole ⟨negative, whole, [], 0⟩, rest)
      else pure (ofScaled ⟨negative, whole, fraction, 0⟩, rest)

/-! ### Values -/

/-- The text after the word `word`, if it starts with it. -/
def readWord : List Char → List Char → Option (List Char)
  | [], cs => some cs
  | w :: word, c :: cs => if w = c then readWord word cs else none
  | _ :: _, [] => none

mutual

/-- A value at the start of the text. The first argument bounds the calls that are still
allowed; every two of them consume a character. -/
def readValue : Nat → List Char → Option (Json × List Char)
  | 0, _ => none
  | fuel + 1, cs =>
    match cs with
    | '"' :: cs => do
      let (s?, rest) ← readString cs
      pure ((s?.map Json.string).getD .unreadable, rest)
    | '[' :: cs =>
      match skipSpace cs with
      | ']' :: rest => some (.array [], rest)
      | cs => do
        let (items, rest) ← readItems fuel cs
        pure (.array items, rest)
    | '{' :: cs =>
      match skipSpace cs with
      | '}' :: rest => some (.object [], rest)
      | cs => do
        let (members?, rest) ← readMembers fuel cs
        pure ((members?.map Json.object).getD .unreadable, rest)
    | 'n' :: cs => (readWord ['u', 'l', 'l'] cs).map (.null, ·)
    | 't' :: cs => (readWord ['r', 'u', 'e'] cs).map (.bool true, ·)
    | 'f' :: cs => (readWord ['a', 'l', 's', 'e'] cs).map (.bool false, ·)
    | '-' :: cs => readNumber true cs
    | cs => readNumber false cs

/-- The items of an array up to its closing bracket, at least one. -/
def readItems : Nat → List Char → Option (List Json × List Char)
  | 0, _ => none
  | fuel + 1, cs => do
    let (item, rest) ← readValue fuel cs
    match skipSpace rest with
    | ',' :: rest =>
      let (items, rest) ← readItems fuel (skipSpace rest)
      pure (item :: items, rest)
    | ']' :: rest => pure ([item], rest)
    | _ => none

/-- The members of an object up to its closing brace, at least one; no members if a name is not
a text. -/
def readMembers : Nat → List Char → Option (Option (List (String × Json)) × List Char)
  | 0, _ => none
  | fuel + 1, cs =>
    match cs with
    | '"' :: cs => do
      let (name?, rest) ← readString cs
      match skipSpace rest with
      | ':' :: rest =>
        let (value, rest) ← readValue fuel (skipSpace rest)
        let member? := name?.map (·, value)
        match skipSpace rest with
        | ',' :: rest =>
          let (members?, rest) ← readMembers fuel (skipSpace rest)
          pure (do let member ← member?; let members ← members?; pure (member :: members), rest)
        | '}' :: rest => pure (member?.map ([·]), rest)
        | _ => none
      | _ => none
    | _ => none

end

/-- The value of a JSON text. -/
def read? (s : String) : Option Json := do
  let cs := s.toList
  let (value, rest) ← readValue (2 * cs.length + 2) (skipSpace cs)
  if (skipSpace rest).isEmpty then some value else none

end Hashmark.Json
