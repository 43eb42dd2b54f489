/-!
# Blank characters

Two classes of blanks are in use: the Unicode property `White_Space` for output text and for the
contents of markers, and the five ASCII blanks between the tokens of an expression. The second
class lies inside the first (`isBlank_of_isAsciiBlank`).
-/

namespace Hashmark.Text

/-- The characters with the Unicode property `White_Space`. -/
def isBlank (c : Char) : Bool :=
  let n := c.toNat
  (0x09 ≤ n && n ≤ 0x0D) || n == 0x20 || n == 0x85 || n == 0xA0 || n == 0x1680 ||
    (0x2000 ≤ n && n ≤ 0x200A) || n == 0x2028 || n == 0x2029 || n == 0x202F || n == 0x205F ||
    n == 0x3000

/-- The blanks that may separate the tokens of an expression: space, tab, line feed, form feed
and carriage return. -/
def isAsciiBlank (c : Char) : Bool :=
  c == ' ' || c == '\t' || c == '\n' || c == '\x0c' || c == '\r'

theorem isBlank_of_isAsciiBlank {c : Char} (h : isAsciiBlank c = true) : isBlank c = true := by
  simp only [isAsciiBlank, Bool.or_eq_true, beq_iff_eq] at h
  rcases h with (((rfl | rfl) | rfl) | rfl) | rfl <;> decide

/-- A list of characters without its leading and trailing blanks. -/
def trimChars (cs : List Char) : List Char :=
  ((cs.dropWhile isBlank).reverse.dropWhile isBlank).reverse

/-- A text without its leading and trailing blanks. -/
def trim (s : String) : String :=
  String.ofList (trimChars s.toList)

/-- The pieces between single blanks, empty pieces included: one more than there are blanks. -/
def cells : List Char → List (List Char)
  | [] => [[]]
  | c :: cs =>
    if isBlank c then
      [] :: cells cs
    else
      match cells cs with
      | [] => [[c]]
      | cell :: rest => (c :: cell) :: rest

/-- The words of a text: its maximal runs of characters that are not blank. -/
def words (s : String) : List String :=
  ((cells s.toList).filter (!·.isEmpty)).map String.ofList

end Hashmark.Text
