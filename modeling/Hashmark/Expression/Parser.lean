import Hashmark.Expression.Token
import Hashmark.Syntax

/-!
# Parsing expressions

The grammar, loosest operators first:

    or      := and (("||" | "or") and)*
    and     := comparison (("&&" | "and") comparison)*
    comparison := sum (("==" | "!=" | "<" | "<=" | ">" | ">=") sum)*
    sum     := product (("+" | "-" | "~") product)*
    product := unary (("*" | "/" | "%") unary)*
    unary   := ("!" | "not" | "-") unary | postfix
    postfix := primary ("." field | "->" field | "[" or "]" | "|" name ("(" list ")")?)*
    primary := variable | name | name "(" list ")" | constant | "[" list "]" | "(" or ")"

All binary operators associate to the left. The parsers take lexemes from the front of a list and
return the rest; an error stands at the lexeme that cannot be used, or at the end of the text.
-/

namespace Hashmark.Expression

/-- The levels of binary operators, loosest first. -/
inductive Level where
  | or
  | and
  | comparison
  | sum
  | product
  deriving DecidableEq, Repr

/-- The next tighter level. -/
def Level.tighter? : Level → Option Level
  | .or => some .and
  | .and => some .comparison
  | .comparison => some .sum
  | .sum => some .product
  | .product => none

/-- The operator of a level that a token stands for. -/
def Level.operator? : Level → Token → Option BinaryOp
  | .or, .symbol .bars => some .or
  | .or, .word "or" => some .or
  | .and, .symbol .ampersands => some .and
  | .and, .word "and" => some .and
  | .comparison, .symbol .equal => some .eq
  | .comparison, .symbol .notEqual => some .ne
  | .comparison, .symbol .less => some .lt
  | .comparison, .symbol .lessEqual => some .le
  | .comparison, .symbol .greater => some .gt
  | .comparison, .symbol .greaterEqual => some .ge
  | .sum, .symbol .plus => some .add
  | .sum, .symbol .minus => some .sub
  | .sum, .symbol .tilde => some .concat
  | .product, .symbol .star => some .mul
  | .product, .symbol .slash => some .div
  | .product, .symbol .percent => some .mod
  | _, _ => none

/-- The operator in front of an operand that a token stands for. -/
def unaryOperator? : Token → Option UnaryOp
  | .symbol .bang => some .not
  | .word "not" => some .not
  | .symbol .minus => some .neg
  | _ => none

/-- The constant that a name stands for. -/
def constant? (name : String) : Option Literal :=
  match name with
  | "true" => some (.bool true)
  | "false" => some (.bool false)
  | "null" | "none" => some .null
  | _ => none

/-- The expression that a token is by itself: a variable or a literal. -/
def atom? : Token → Option Expr
  | .variable name => some (.var name)
  | .str value => some (.lit (.str value))
  | .int value => some (.lit (.int value))
  | .float value => some (.lit (.float value))
  | .word _ | .symbol _ => none

/-- The lexemes that are left. -/
abbrev Lexemes := List Lexeme

/-- The place of the next lexeme; `stop` is the end of the text. -/
def offsetOf (stop : Nat) : Lexemes → Nat
  | [] => stop
  | lexeme :: _ => lexeme.offset

/-- Consumes one symbol. -/
def expectSymbol (stop : Nat) (symbol : Symbol) (ts : Lexemes) : Except ExprError Lexemes :=
  match ts with
  | [] => .error ⟨.expected symbol none, stop⟩
  | lexeme :: rest =>
    if lexeme.token = .symbol symbol then .ok rest
    else .error ⟨.expected symbol (some lexeme.token), lexeme.offset⟩

/-- The name of a field: a word, or a number in its shortest form. -/
def readField (stop : Nat) (ts : Lexemes) : Except ExprError (String × Lexemes) :=
  match ts with
  | [] => .error ⟨.missingFieldName, stop⟩
  | lexeme :: rest =>
    match lexeme.token with
    | .word name => .ok (name, rest)
    | .int n => .ok (toString n, rest)
    | _ => .error ⟨.missingFieldName, offsetOf stop rest⟩

/-- The name of a filter. -/
def readFilter (stop : Nat) (ts : Lexemes) : Except ExprError (String × Lexemes) :=
  match ts with
  | [] => .error ⟨.missingFilterName, stop⟩
  | lexeme :: rest =>
    match lexeme.token with
    | .word name => .ok (name, rest)
    | _ => .error ⟨.missingFilterName, offsetOf stop rest⟩

mutual

/-- An expression of a level or a tighter one. The first argument bounds the nesting of the calls
that are still allowed, `stop` is the end of the text. -/
def parseLevel (fuel stop : Nat) (level : Level) (ts : Lexemes) :
    Except ExprError (Expr × Lexemes) :=
  match fuel with
  | 0 => .error ⟨.tooDeep, offsetOf stop ts⟩
  | fuel + 1 => do
    let (left, ts) ← parseOperand fuel stop level ts
    parseOperators fuel stop level left ts

/-- An operand of the operators of a level. -/
def parseOperand (fuel stop : Nat) (level : Level) (ts : Lexemes) :
    Except ExprError (Expr × Lexemes) :=
  match fuel with
  | 0 => .error ⟨.tooDeep, offsetOf stop ts⟩
  | fuel + 1 =>
    match level.tighter? with
    | some level => parseLevel fuel stop level ts
    | none => parseUnary fuel stop ts

/-- The operators of a level after `left`, with their right operands. -/
def parseOperators (fuel stop : Nat) (level : Level) (left : Expr) (ts : Lexemes) :
    Except ExprError (Expr × Lexemes) :=
  match fuel with
  | 0 => .error ⟨.tooDeep, offsetOf stop ts⟩
  | fuel + 1 =>
    match ts with
    | [] => .ok (left, [])
    | lexeme :: rest =>
      match level.operator? lexeme.token with
      | some op => do
        let (right, rest) ← parseOperand fuel stop level rest
        parseOperators fuel stop level (.binary op left right) rest
      | none => .ok (left, lexeme :: rest)

/-- An operand with the operators in front of it. -/
def parseUnary (fuel stop : Nat) (ts : Lexemes) : Except ExprError (Expr × Lexemes) :=
  match fuel with
  | 0 => .error ⟨.tooDeep, offsetOf stop ts⟩
  | fuel + 1 =>
    match ts with
    | [] => parsePostfix fuel stop []
    | lexeme :: rest =>
      match unaryOperator? lexeme.token with
      | some op => do
        let (operand, rest) ← parseUnary fuel stop rest
        pure (.unary op operand, rest)
      | none => parsePostfix fuel stop (lexeme :: rest)

/-- A primary expression with everything that binds to it from behind. -/
def parsePostfix (fuel stop : Nat) (ts : Lexemes) : Except ExprError (Expr × Lexemes) :=
  match fuel with
  | 0 => .error ⟨.tooDeep, offsetOf stop ts⟩
  | fuel + 1 => do
    let (base, ts) ← parsePrimary fuel stop ts
    parseAccesses fuel stop base ts

/-- The fields, indices and filters after `base`. -/
def parseAccesses (fuel stop : Nat) (base : Expr) (ts : Lexemes) :
    Except ExprError (Expr × Lexemes) :=
  match fuel with
  | 0 => .error ⟨.tooDeep, offsetOf stop ts⟩
  | fuel + 1 =>
    match ts with
    | [] => .ok (base, [])
    | lexeme :: rest =>
      match lexeme.token with
      | .symbol .dot | .symbol .arrow => do
        let (name, rest) ← readField stop rest
        parseAccesses fuel stop (.field base name) rest
      | .symbol .openBracket => do
        let (key, rest) ← parseLevel fuel stop .or rest
        let rest ← expectSymbol stop .closeBracket rest
        parseAccesses fuel stop (.index base key) rest
      | .symbol .bar => do
        let (name, rest) ← readFilter stop rest
        let (args, rest) ← parseOptionalArgs fuel stop rest
        parseAccesses fuel stop (.filter base name args) rest
      | _ => .ok (base, lexeme :: rest)

/-- The arguments of a filter, which may be left out together with their parentheses. -/
def parseOptionalArgs (fuel stop : Nat) (ts : Lexemes) : Except ExprError (List Expr × Lexemes) :=
  match fuel with
  | 0 => .error ⟨.tooDeep, offsetOf stop ts⟩
  | fuel + 1 =>
    match ts with
    | [] => .ok ([], [])
    | lexeme :: rest =>
      if lexeme.token = .symbol .openParen then parseList fuel stop .closeParen rest
      else .ok ([], lexeme :: rest)

/-- An expression that no operator splits. -/
def parsePrimary (fuel stop : Nat) (ts : Lexemes) : Except ExprError (Expr × Lexemes) :=
  match fuel with
  | 0 => .error ⟨.tooDeep, offsetOf stop ts⟩
  | fuel + 1 =>
    match ts with
    | [] => .error ⟨.unexpectedEnd, stop⟩
    | lexeme :: rest =>
      match atom? lexeme.token with
      | some atom => .ok (atom, rest)
      | none =>
        match lexeme.token with
        | .word name =>
          match constant? name with
          | some literal => .ok (.lit literal, rest)
          | none =>
            match rest with
            | [] => .ok (.var name, [])
            | next :: tail =>
              if next.token = .symbol .openParen then do
                let (args, tail) ← parseList fuel stop .closeParen tail
                pure (.call name args, tail)
              else .ok (.var name, next :: tail)
        | .symbol .openParen => do
          let (inner, rest) ← parseLevel fuel stop .or rest
          let rest ← expectSymbol stop .closeParen rest
          pure (inner, rest)
        | .symbol .openBracket => do
          let (items, rest) ← parseList fuel stop .closeBracket rest
          pure (.list items, rest)
        | token => .error ⟨.unexpectedToken token, lexeme.offset⟩

/-- Expressions separated by commas up to the symbol `close`, possibly none. -/
def parseList (fuel stop : Nat) (close : Symbol) (ts : Lexemes) :
    Except ExprError (List Expr × Lexemes) :=
  match fuel with
  | 0 => .error ⟨.tooDeep, offsetOf stop ts⟩
  | fuel + 1 =>
    match ts with
    | lexeme :: rest =>
      if lexeme.token = .symbol close then .ok ([], rest)
      else do
        let (items, ts) ← parseItems fuel stop (lexeme :: rest)
        let ts ← expectSymbol stop close ts
        pure (items, ts)
    | [] => do
      let (items, ts) ← parseItems fuel stop []
      let ts ← expectSymbol stop close ts
      pure (items, ts)

/-- One or more expressions separated by commas. -/
def parseItems (fuel stop : Nat) (ts : Lexemes) : Except ExprError (List Expr × Lexemes) :=
  match fuel with
  | 0 => .error ⟨.tooDeep, offsetOf stop ts⟩
  | fuel + 1 => do
    let (item, ts) ← parseLevel fuel stop .or ts
    match ts with
    | [] => pure ([item], [])
    | lexeme :: rest =>
      if lexeme.token = .symbol .comma then do
        let (items, rest) ← parseItems fuel stop rest
        pure (item :: items, rest)
      else pure ([item], lexeme :: rest)

end

/-- Calls enough for any list of lexemes: between two consumed lexemes the calls descend once
through all levels at most. -/
def fuelFor (ts : Lexemes) : Nat :=
  20 * (ts.length + 1)

end Hashmark.Expression

namespace Hashmark

open Expression in
/-- The expression that a whole text stands for. -/
def parseExpr (text : String) : Except ExprError Expr := do
  let ts ← tokenize text
  let stop := text.utf8ByteSize
  if ts.isEmpty then throw ⟨.empty, 0⟩
  let (e, rest) ← parseLevel (fuelFor ts) stop .or ts
  match rest with
  | [] => pure e
  | lexeme :: _ => throw ⟨.trailing lexeme.token, lexeme.offset⟩

open Expression in
/-- The expressions of a list of arguments, separated by commas; a blank text has none. -/
def parseArgs (text : String) : Except ExprError (List Expr) :=
  if (Text.trimChars text.toList).isEmpty then pure []
  else do
    let ts ← tokenize text
    let stop := text.utf8ByteSize
    let (args, rest) ← parseItems (fuelFor ts) stop ts
    match rest with
    | [] => pure args
    | lexeme :: _ => throw ⟨.trailingInArguments lexeme.token, lexeme.offset⟩

end Hashmark
