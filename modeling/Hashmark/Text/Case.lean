import Hashmark.Text.CaseTable

/-!
# Case mapping

Full case mapping by the Unicode rules that need no language: a character may map to several
(`ß` to `SS`), and a capital sigma becomes `ς` at the end of a word and `σ` elsewhere.
-/

namespace Hashmark.Text

namespace CaseTable

/-- The counterpart of code point `n` under a run that contains it. -/
def Run.map? (r : Run) (n : Nat) : Option Nat :=
  if r.first ≤ n ∧ n ≤ r.last ∧ (n - r.first) % r.step = 0 then
    some (r.target + (n - r.first))
  else
    none

/-- The code points that `n` maps to; a code point without an entry maps to itself. -/
def map (several : List (Nat × List Nat)) (runs : List Run) (n : Nat) : List Nat :=
  match several.lookup n with
  | some ns => ns
  | none => [(runs.findSome? (Run.map? · n)).getD n]

/-- Membership of a code point in a list of inclusive ranges. -/
def contains (ranges : List (Nat × Nat)) (n : Nat) : Bool :=
  ranges.any fun (first, last) => first ≤ n && n ≤ last

end CaseTable

/-- The upper case of one character. -/
def upperChar (c : Char) : List Char :=
  if c.toNat < 0x80 then [c.toUpper]
  else (CaseTable.map CaseTable.upperSeveral CaseTable.upper c.toNat).map Char.ofNat

/-- The lower case of one character outside of any word. -/
def lowerChar (c : Char) : List Char :=
  if c.toNat < 0x80 then [c.toLower]
  else (CaseTable.map CaseTable.lowerSeveral CaseTable.lower c.toNat).map Char.ofNat

/-- The characters that the search for a neighbouring letter passes over. -/
def isCaseIgnorable (c : Char) : Bool :=
  CaseTable.contains CaseTable.ignorable c.toNat

/-- The letters that have case. -/
def isCased (c : Char) : Bool :=
  CaseTable.contains CaseTable.cased c.toNat

/-- Whether the first character that is not passed over is a cased letter. -/
def startsCased (cs : List Char) : Bool :=
  match cs.dropWhile isCaseIgnorable with
  | [] => false
  | c :: _ => isCased c

/-- Lower case from left to right; `inWord` tells whether the nearest character on the left that
is not passed over is a cased letter. A capital sigma is final if there is such a letter before
it and none after it. -/
def lowerFrom (inWord : Bool) : List Char → List Char
  | [] => []
  | c :: cs =>
    let mapped :=
      if c = 'Σ' then [if inWord && !startsCased cs then 'ς' else 'σ'] else lowerChar c
    let inWord := if isCaseIgnorable c then inWord else isCased c
    mapped ++ lowerFrom inWord cs

/-- A text in upper case. -/
def upper (s : String) : String :=
  String.ofList (s.toList.flatMap upperChar)

/-- A text in lower case. -/
def lower (s : String) : String :=
  String.ofList (lowerFrom false s.toList)

/-- A text with its first character in upper case and the rest as it is. -/
def capitalize (s : String) : String :=
  match s.toList with
  | [] => ""
  | c :: cs => String.ofList (upperChar c ++ cs)

end Hashmark.Text
