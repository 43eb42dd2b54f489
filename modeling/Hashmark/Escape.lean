import Hashmark.Value.Basic

/-!
# Escaping

Every value that a marker emits passes `escape`. Markup passes unchanged; any other text has its
five special characters replaced by character references.
-/

namespace Hashmark

/-- What a character is written as in the text of a page. -/
def escapedChar (c : Char) : List Char :=
  match c with
  | '&' => "&amp;".toList
  | '<' => "&lt;".toList
  | '>' => "&gt;".toList
  | '"' => "&quot;".toList
  | '\'' => "&#x27;".toList
  | c => [c]

/-- A text with its special characters replaced. -/
def escapeText (s : String) : String :=
  String.ofList (s.toList.flatMap escapedChar)

/-- The output of a value. -/
def escape : Value → String
  | .safe markup => markup
  | v => escapeText v.text

end Hashmark
