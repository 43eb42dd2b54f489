import Hashmark.Source
import Hashmark.Text.Blank
import Hashmark.Number.Numeral

/-!
# The tokens of an expression

`tokenize` splits the text of an expression into tokens, each with the byte at which it starts.
Tokens are separated by ASCII blanks, and the longest symbol wins.
-/

namespace Hashmark.Expression

/-- The symbols of the expression language. -/
inductive Symbol where
  | arrow
  | equal
  | notEqual
  | lessEqual
  | greaterEqual
  | ampersands
  | bars
  | less
  | greater
  | bang
  | plus
  | minus
  | star
  | slash
  | percent
  | tilde
  | bar
  | dot
  | comma
  | openParen
  | closeParen
  | openBracket
  | closeBracket
  deriving DecidableEq, Repr

/-- How a symbol is written. -/
def Symbol.text : Symbol → String
  | .arrow => "->"
  | .equal => "=="
  | .notEqual => "!="
  | .lessEqual => "<="
  | .greaterEqual => ">="
  | .ampersands => "&&"
  | .bars => "||"
  | .less => "<"
  | .greater => ">"
  | .bang => "!"
  | .plus => "+"
  | .minus => "-"
  | .star => "*"
  | .slash => "/"
  | .percent => "%"
  | .tilde => "~"
  | .bar => "|"
  | .dot => "."
  | .comma => ","
  | .openParen => "("
  | .closeParen => ")"
  | .openBracket => "["
  | .closeBracket => "]"

/-- A token of an expression. -/
inductive Token where
  /-- A name after `$`. -/
  | variable (name : String)
  | word (name : String)
  | str (value : String)
  | int (value : Int64)
  | float (value : Float)
  | symbol (s : Symbol)
  deriving DecidableEq, Repr

/-- How a message names a token. -/
def Token.describe : Token → String
  | .variable name => s!"variable `${name}`"
  | .word name => s!"`{name}`"
  | .str _ => "string"
  | .int _ | .float _ => "number"
  | .symbol s => s!"`{s.text}`"

/-- What is wrong with the text of an expression. -/
inductive ExprFault where
  | missingVariableName
  | integerTooLarge
  | unterminatedString
  | unexpectedChar (c : Char)
  | empty
  | trailing (token : Token)
  | trailingInArguments (token : Token)
  | expected (symbol : Symbol) (found : Option Token)
  | missingFieldName
  | missingFilterName
  | unexpectedEnd
  | unexpectedToken (token : Token)
  /-- The calls that a parse allows are used up; they cover every text. -/
  | tooDeep
  deriving DecidableEq, Repr

/-- The message for a fault. -/
def ExprFault.message : ExprFault → String
  | .missingVariableName => "expected a variable name after `$`"
  | .integerTooLarge => "invalid number: number too large to fit in target type"
  | .unterminatedString => "unterminated string literal"
  | .unexpectedChar c => s!"unexpected character `{c}`"
  | .empty => "empty expression"
  | .trailing token => s!"unexpected {token.describe} after expression"
  | .trailingInArguments token => s!"unexpected {token.describe} in argument list"
  | .expected symbol (some token) => s!"expected `{symbol.text}`, found {token.describe}"
  | .expected symbol none => s!"expected `{symbol.text}`, found end of expression"
  | .missingFieldName => "expected a field name"
  | .missingFilterName => "expected a filter name after `|`"
  | .unexpectedEnd => "unexpected end of expression"
  | .unexpectedToken token => s!"unexpected {token.describe}"
  | .tooDeep => "expression is nested too deeply"

/-- A fault and the byte of the expression's text where it was found. -/
structure ExprError where
  fault : ExprFault
  offset : Nat
  deriving DecidableEq, Repr

/-- A token and the byte at which it starts. -/
structure Lexeme where
  token : Token
  offset : Nat
  deriving DecidableEq, Repr

/-! ### Character classes -/

/-- The characters that may start a name. -/
def isNameStart (c : Char) : Bool :=
  c.isAlpha || c == '_'

/-- The characters of a name. -/
def isNameChar (c : Char) : Bool :=
  c.isAlphanum || c == '_'

/-- Whether a text is a name: a letter or `_`, then letters, digits and `_`. -/
def isName (cs : List Char) : Bool :=
  match cs with
  | [] => false
  | c :: rest => isNameStart c && rest.all isNameChar

/-! ### Reading one token -/

/-- What a character after a backslash stands for: itself, `n` and `t` apart. -/
def unescaped (c : Char) : Char :=
  if c = 'n' then '\n' else if c = 't' then '\t' else c

/-- A string up to its closing quote, which is consumed. -/
def readQuoted (quote : Char) : List Char → Option (List Char × List Char)
  | [] => none
  | ['\\'] => none
  | '\\' :: c :: rest => do
    let (value, rest) ← readQuoted quote rest
    pure (unescaped c :: value, rest)
  | c :: rest =>
    if c = quote then some ([], rest)
    else do
      let (value, rest) ← readQuoted quote rest
      pure (c :: value, rest)

/-- The symbol at the start of a text; a longer symbol wins over its beginning. -/
def readSymbol : List Char → Option (Symbol × List Char)
  | '-' :: '>' :: rest => some (.arrow, rest)
  | '=' :: '=' :: rest => some (.equal, rest)
  | '!' :: '=' :: rest => some (.notEqual, rest)
  | '<' :: '=' :: rest => some (.lessEqual, rest)
  | '>' :: '=' :: rest => some (.greaterEqual, rest)
  | '&' :: '&' :: rest => some (.ampersands, rest)
  | '|' :: '|' :: rest => some (.bars, rest)
  | '<' :: rest => some (.less, rest)
  | '>' :: rest => some (.greater, rest)
  | '!' :: rest => some (.bang, rest)
  | '+' :: rest => some (.plus, rest)
  | '-' :: rest => some (.minus, rest)
  | '*' :: rest => some (.star, rest)
  | '/' :: rest => some (.slash, rest)
  | '%' :: rest => some (.percent, rest)
  | '~' :: rest => some (.tilde, rest)
  | '|' :: rest => some (.bar, rest)
  | '.' :: rest => some (.dot, rest)
  | ',' :: rest => some (.comma, rest)
  | '(' :: rest => some (.openParen, rest)
  | ')' :: rest => some (.closeParen, rest)
  | '[' :: rest => some (.openBracket, rest)
  | ']' :: rest => some (.closeBracket, rest)
  | _ => none

/-- The digits after a point, and the text after them; the point stays if no digit follows. -/
def readFraction : List Char → List Nat × List Char
  | '.' :: cs =>
    match Number.takeDigits cs with
    | ([], _) => ([], '.' :: cs)
    | (d :: ds, rest) => (d :: ds, rest)
  | cs => ([], cs)

/-- A number: a whole number of 64 bits, or a double if a point with a digit behind it follows. -/
def readNumber (cs : List Char) : Except ExprFault (Token × List Char) :=
  let whole := (Number.takeDigits cs).1
  let (fraction, rest) := readFraction (Number.takeDigits cs).2
  if !fraction.isEmpty then
    .ok (.float (Number.Numeral.nearest ⟨false, whole, fraction, 0⟩), rest)
  else if Number.foldDigits 0 whole ≤ Int64.maxValue.toNatClampNeg then
    .ok (.int (Int64.ofNat (Number.foldDigits 0 whole)), rest)
  else
    .error .integerTooLarge

/-- The token at the start of a text that is not empty and does not start with a blank. -/
def readToken (c : Char) (cs : List Char) : Except ExprFault (Token × List Char) :=
  if c = '$' then
    match cs.takeWhile isNameChar with
    | [] => .error .missingVariableName
    | name => .ok (.variable (String.ofList name), cs.dropWhile isNameChar)
  else if isNameStart c then
    .ok (.word (String.ofList (c :: cs.takeWhile isNameChar)), cs.dropWhile isNameChar)
  else if c.isDigit then
    readNumber (c :: cs)
  else if c = '\'' ∨ c = '"' then
    match readQuoted c cs with
    | some (value, rest) => .ok (.str (String.ofList value), rest)
    | none => .error .unterminatedString
  else
    match readSymbol (c :: cs) with
    | some (s, rest) => .ok (.symbol s, rest)
    | none => .error (.unexpectedChar c)

/-! ### What is left is shorter -/

theorem length_dropWhile_le {α : Type} (p : α → Bool) (l : List α) :
    (l.dropWhile p).length ≤ l.length :=
  (List.dropWhile_sublist p).length_le

theorem readQuoted_length {quote : Char} {cs value rest : List Char}
    (h : readQuoted quote cs = some (value, rest)) : rest.length < cs.length := by
  fun_induction readQuoted quote cs generalizing value with
  | case1 => cases h
  | case2 => cases h
  | case3 c tail ih =>
    simp only [Option.bind_eq_bind, Option.pure_def, Option.bind_eq_some_iff, Option.some.injEq,
      Prod.mk.injEq, Prod.exists] at h
    obtain ⟨value', rest', h', _, rfl⟩ := h
    have := ih h'
    simp only [List.length_cons]; omega
  | case4 =>
    cases h
    simp
  | case5 c tail _ _ _ ih =>
    simp only [Option.bind_eq_bind, Option.pure_def, Option.bind_eq_some_iff, Option.some.injEq,
      Prod.mk.injEq, Prod.exists] at h
    obtain ⟨value', rest', h', _, rfl⟩ := h
    have := ih h'
    simp only [List.length_cons]; omega

theorem readSymbol_length {cs rest : List Char} {s : Symbol}
    (h : readSymbol cs = some (s, rest)) : rest.length < cs.length := by
  unfold readSymbol at h
  split at h <;> cases h <;> simp only [List.length_cons] <;> omega

theorem readFraction_length (cs : List Char) : (readFraction cs).2.length ≤ cs.length := by
  unfold readFraction
  split
  · next tail =>
    have := Number.takeDigits_length tail
    split
    · simp
    · next h => rw [h] at this; simp only [List.length_cons] at *; omega
  · simp

theorem readNumber_length {c : Char} {cs rest : List Char} {t : Token} (hc : c.isDigit = true)
    (h : readNumber (c :: cs) = .ok (t, rest)) : rest.length < (c :: cs).length := by
  have hlen := Number.takeDigits_length cs
  have htail : (Number.takeDigits (c :: cs)).2 = (Number.takeDigits cs).2 := by
    simp [Number.takeDigits, Number.digit?, hc]
  have hfrac := readFraction_length (Number.takeDigits cs).2
  have hrest : rest = (readFraction (Number.takeDigits cs).2).2 := by
    simp only [readNumber, htail] at h
    split at h
    · cases h; rfl
    · split at h
      · cases h; rfl
      · cases h
  subst hrest
  simp only [List.length_cons]; omega

theorem readToken_length {c : Char} {cs rest : List Char} {t : Token}
    (h : readToken c cs = .ok (t, rest)) : rest.length < (c :: cs).length := by
  have hdrop := length_dropWhile_le isNameChar cs
  unfold readToken at h
  split at h
  · split at h
    · simp at h
    · simp only [Except.ok.injEq, Prod.mk.injEq] at h
      obtain ⟨_, rfl⟩ := h
      simp only [List.length_cons]; omega
  · split at h
    · simp only [Except.ok.injEq, Prod.mk.injEq] at h
      obtain ⟨_, rfl⟩ := h
      simp only [List.length_cons]; omega
    · split at h
      · next hc => exact readNumber_length hc h
      · split at h
        · split at h
          · next hq =>
            simp only [Except.ok.injEq, Prod.mk.injEq] at h
            obtain ⟨_, rfl⟩ := h
            have := readQuoted_length hq
            simp only [List.length_cons]; omega
          · simp at h
        · split at h
          · next hs =>
            simp only [Except.ok.injEq, Prod.mk.injEq] at h
            obtain ⟨_, rfl⟩ := h
            exact readSymbol_length hs
          · simp at h

/-! ### The whole text -/

/-- The tokens of a text that starts at byte `offset`. -/
def tokenizeFrom (offset : Nat) : List Char → Except ExprError (List Lexeme)
  | [] => .ok []
  | c :: cs =>
    if Text.isAsciiBlank c then tokenizeFrom (offset + 1) cs
    else
      match _h : readToken c cs with
      | .error fault => .error ⟨fault, offset⟩
      | .ok (token, rest) => do
        let width := byteCount ((c :: cs).take ((c :: cs).length - rest.length))
        let lexemes ← tokenizeFrom (offset + width) rest
        pure (⟨token, offset⟩ :: lexemes)
termination_by cs => cs.length
decreasing_by
  · simp
  · exact readToken_length ‹_›

/-- The tokens of a text. -/
def tokenize (text : String) : Except ExprError (List Lexeme) :=
  tokenizeFrom 0 text.toList

end Hashmark.Expression
