import Hashmark.Expression.Parser
import Hashmark.Proofs.Storing.Floats
import Hashmark.Proofs.Writing.Tokens

/-!
# Writing expressions

An expression is written as tokens, with parentheses around each operand that binds less tightly than
its place asks for (`Expr.tokens`). The ranks of the places follow the grammar: binary operators by
their level, then the operators in front of an operand, and then what binds from behind. A filter
without arguments can also stand without its parentheses (`Expr.tokensWith`).
-/

namespace Hashmark

open Expression

/-! ### Operators -/

/-- How tightly the operators of a level bind. -/
def Expression.Level.rank : Level → Nat
  | .or => 0
  | .and => 1
  | .comparison => 2
  | .sum => 3
  | .product => 4

/-- The rank of an operand with an operator in front of it. -/
def unaryRank : Nat := 5

/-- The rank of what fields, indices and filters can follow. -/
def postfixRank : Nat := 6

/-- The level of a binary operator. -/
def BinaryOp.level : BinaryOp → Level
  | .or => .or
  | .and => .and
  | .eq | .ne | .lt | .le | .gt | .ge => .comparison
  | .add | .sub | .concat => .sum
  | .mul | .div | .mod => .product

/-- The symbol of a binary operator. -/
def BinaryOp.symbol : BinaryOp → Symbol
  | .or => .bars
  | .and => .ampersands
  | .eq => .equal
  | .ne => .notEqual
  | .lt => .less
  | .le => .lessEqual
  | .gt => .greater
  | .ge => .greaterEqual
  | .add => .plus
  | .sub => .minus
  | .mul => .star
  | .div => .slash
  | .mod => .percent
  | .concat => .tilde

/-- The symbol of an operator in front of its operand. -/
def UnaryOp.symbol : UnaryOp → Symbol
  | .not => .bang
  | .neg => .minus

/-- A symbol is an operator of the operator's level only. -/
theorem BinaryOp.operator?_symbol (op : BinaryOp) (level : Level) :
    level.operator? (.symbol op.symbol) = if level = op.level then some op else none := by
  cases op <;> cases level <;> rfl

theorem UnaryOp.unaryOperator?_symbol (op : UnaryOp) :
    unaryOperator? (.symbol op.symbol) = some op := by
  cases op <;> rfl

/-! ### The tokens of an expression -/

/-- How tightly an expression binds. -/
def Expr.rank : Expr → Nat
  | .binary op _ _ => op.level.rank
  | .unary _ _ => unaryRank
  | _ => postfixRank

section Rank

variable {e key : Expr} {es : List Expr} {name : String}

@[simp] theorem Expr.rank_list : (Expr.list es).rank = postfixRank := rfl

@[simp] theorem Expr.rank_field : (e.field name).rank = postfixRank := rfl

@[simp] theorem Expr.rank_index : (e.index key).rank = postfixRank := rfl

@[simp] theorem Expr.rank_call : (Expr.call name es).rank = postfixRank := rfl

@[simp] theorem Expr.rank_filter : (e.filter name es).rank = postfixRank := rfl

@[simp] theorem Expr.rank_unary (op : UnaryOp) : (Expr.unary op e).rank = unaryRank := rfl

@[simp] theorem Expr.rank_binary (op : BinaryOp) (right : Expr) :
    (Expr.binary op e right).rank = op.level.rank := rfl

end Rank

/-- The token of a constant. -/
def Literal.token : Literal → Token
  | .null => .word "null"
  | .bool value => .word (if value then "true" else "false")
  | .int value => .int value
  | .float value => .float value
  | .str value => .str value

/-- The token of the name of a field, which may be a number. -/
def fieldToken (name : String) : Token :=
  if isName name.toList then .word name
  else .int (Int64.ofNat (Number.foldDigits 0 (Number.takeDigits name.toList).1))

/-- Some tokens, in parentheses where these are needed. -/
def enclosed (needed : Prop) [Decidable needed] (ts : List Token) : List Token :=
  if needed then .symbol .openParen :: (ts ++ [.symbol .closeParen]) else ts

mutual

/-- The tokens of an expression. -/
def Expr.tokens : Expr → List Token
  | .lit value => [value.token]
  | .list items => .symbol .openBracket :: (Expr.tokensOfList items ++ [.symbol .closeBracket])
  | .var name => [.variable name]
  | .field base name =>
    enclosed (base.rank < postfixRank) base.tokens ++ [.symbol .arrow, fieldToken name]
  | .index base key =>
    enclosed (base.rank < postfixRank) base.tokens ++
      .symbol .openBracket :: (key.tokens ++ [.symbol .closeBracket])
  | .call name args =>
    .word name :: .symbol .openParen :: (Expr.tokensOfList args ++ [.symbol .closeParen])
  | .filter input name args =>
    enclosed (input.rank < postfixRank) input.tokens ++
      .symbol .bar :: .word name :: .symbol .openParen ::
        (Expr.tokensOfList args ++ [.symbol .closeParen])
  | .unary op operand =>
    .symbol op.symbol :: enclosed (operand.rank < unaryRank) operand.tokens
  | .binary op left right =>
    enclosed (left.rank < op.level.rank) left.tokens ++
      .symbol op.symbol :: enclosed (right.rank < op.level.rank + 1) right.tokens

/-- The tokens of several expressions, with commas between them. -/
def Expr.tokensOfList : List Expr → List Token
  | [] => []
  | [e] => e.tokens
  | e :: e' :: es => e.tokens ++ .symbol .comma :: Expr.tokensOfList (e' :: es)

end

/-- The text of an expression. -/
def Expr.written (e : Expr) : List Char :=
  writtenTokens e.tokens

/-- The arguments of a filter in parentheses, which may be left out if there are none. -/
def filterArgs (bare : Bool) (args : List Expr) (ts : List Token) : List Token :=
  if bare = true ∧ args = [] then [] else .symbol .openParen :: (ts ++ [.symbol .closeParen])

mutual

/-- The tokens of an expression, where filters without arguments are `bare` or have parentheses
as all others. -/
def Expr.tokensWith (bare : Bool) : Expr → List Token
  | .lit value => [value.token]
  | .list items =>
    .symbol .openBracket :: (Expr.tokensOfListWith bare items ++ [.symbol .closeBracket])
  | .var name => [.variable name]
  | .field base name =>
    enclosed (base.rank < postfixRank) (base.tokensWith bare) ++ [.symbol .arrow, fieldToken name]
  | .index base key =>
    enclosed (base.rank < postfixRank) (base.tokensWith bare) ++
      .symbol .openBracket :: (key.tokensWith bare ++ [.symbol .closeBracket])
  | .call name args =>
    .word name :: .symbol .openParen ::
      (Expr.tokensOfListWith bare args ++ [.symbol .closeParen])
  | .filter input name args =>
    enclosed (input.rank < postfixRank) (input.tokensWith bare) ++
      .symbol .bar :: .word name :: filterArgs bare args (Expr.tokensOfListWith bare args)
  | .unary op operand =>
    .symbol op.symbol :: enclosed (operand.rank < unaryRank) (operand.tokensWith bare)
  | .binary op left right =>
    enclosed (left.rank < op.level.rank) (left.tokensWith bare) ++
      .symbol op.symbol :: enclosed (right.rank < op.level.rank + 1) (right.tokensWith bare)

/-- The tokens of several expressions, with commas between them. -/
def Expr.tokensOfListWith (bare : Bool) : List Expr → List Token
  | [] => []
  | [e] => e.tokensWith bare
  | e :: e' :: es => e.tokensWith bare ++ .symbol .comma :: Expr.tokensOfListWith bare (e' :: es)

end

mutual

theorem Expr.tokensWith_false : ∀ e : Expr, e.tokensWith false = e.tokens
  | .lit _ => rfl
  | .var _ => rfl
  | .list items => by rw [tokensWith, tokens, tokensOfListWith_false items]
  | .field base name => by rw [tokensWith, tokens, tokensWith_false base]
  | .index base key => by rw [tokensWith, tokens, tokensWith_false base, tokensWith_false key]
  | .call name args => by rw [tokensWith, tokens, tokensOfListWith_false args]
  | .filter input name args => by
    rw [tokensWith, tokens, tokensWith_false input, tokensOfListWith_false args, filterArgs,
      if_neg (by simp)]
  | .unary op operand => by rw [tokensWith, tokens, tokensWith_false operand]
  | .binary op left right => by
    rw [tokensWith, tokens, tokensWith_false left, tokensWith_false right]

theorem Expr.tokensOfListWith_false : ∀ es : List Expr,
    Expr.tokensOfListWith false es = Expr.tokensOfList es
  | [] => rfl
  | [e] => tokensWith_false e
  | e :: e' :: es => by
    rw [tokensOfListWith, tokensOfList, tokensWith_false e, tokensOfListWith_false (e' :: es)]

end

/-! ### What can be written -/

/-- The names of fields: words, and numbers in their shortest form. -/
def IsFieldName (name : String) : Prop :=
  isName name.toList = true ∨ ∃ n ≤ Int64.maxValue.toNatClampNeg, name = toString (Int64.ofNat n)

/-- The names that a call begins with: constants and the operator `not` are none. -/
def IsFunctionName (name : String) : Prop :=
  isName name.toList = true ∧ name ≠ "not" ∧ constant? name = none

mutual

/-- Whether an expression is put together as expressions of a text are: its integers are not
negative and its names are names. -/
def Expr.WellFormed : Expr → Prop
  | .lit value => value.token.WellFormed
  | .list items => Expr.WellFormedList items
  | .var name => (Token.variable name).WellFormed
  | .field base name => base.WellFormed ∧ IsFieldName name
  | .index base key => base.WellFormed ∧ key.WellFormed
  | .call name args => IsFunctionName name ∧ Expr.WellFormedList args
  | .filter input name args =>
    input.WellFormed ∧ isName name.toList = true ∧ Expr.WellFormedList args
  | .unary _ operand => operand.WellFormed
  | .binary _ left right => left.WellFormed ∧ right.WellFormed

/-- Whether several expressions are put together so. -/
def Expr.WellFormedList : List Expr → Prop
  | [] => True
  | e :: es => e.WellFormed ∧ Expr.WellFormedList es

end

/-- The token of a field's name is read as that name. -/
theorem fieldToken_cases {name : String} (h : IsFieldName name) :
    (isName name.toList = true ∧ fieldToken name = .word name) ∨
      ∃ n ≤ Int64.maxValue.toNatClampNeg,
        name = toString (Int64.ofNat n) ∧ fieldToken name = .int (Int64.ofNat n) := by
  by_cases hname : isName name.toList = true
  · exact .inl ⟨hname, if_pos hname⟩
  · obtain ⟨n, hn, rfl⟩ := h.resolve_left hname
    refine .inr ⟨n, hn, rfl, ?_⟩
    have hdigits : Number.takeDigits (Nat.toDigits 10 n ++ []) =
        (Number.digitsOf (Nat.toDigits 10 n), []) :=
      Number.takeDigits_append
        (fun c hc => Nat.isDigit_of_mem_toDigits (by decide) (by decide) hc) (by simp)
    rw [List.append_nil] at hdigits
    rw [fieldToken, if_neg hname, toString_ofNat hn, hdigits, Number.foldDigits_digitsOf,
      Nat.ofDigitChars_toDigits (by decide) (by decide)]

theorem fieldToken_exact {name : String} (h : IsFieldName name) : (fieldToken name).Exact := by
  rcases fieldToken_cases h with ⟨hname, htoken⟩ | ⟨n, hn, -, htoken⟩
  · rw [htoken]
    exact ⟨hname, nofun⟩
  · rw [htoken]
    exact ⟨⟨n, hn, rfl⟩, nofun⟩

/-! ### The tokens are exact -/

theorem exact_symbol (s : Symbol) : (Token.symbol s).Exact :=
  ⟨trivial, nofun⟩

theorem exact_word {name : String} (h : isName name.toList = true) : (Token.word name).Exact :=
  ⟨h, nofun⟩

/-- Tokens that a symbol closes. -/
theorem exact_closed {ts : List Token} (h : ∀ t ∈ ts, t.Exact) (s : Symbol) :
    ∀ t ∈ ts ++ [.symbol s], t.Exact :=
  List.forall_mem_append.2 ⟨h, List.forall_mem_singleton.2 (exact_symbol s)⟩

theorem exact_enclosed (needed : Prop) [Decidable needed] {ts : List Token}
    (h : ∀ t ∈ ts, t.Exact) : ∀ t ∈ enclosed needed ts, t.Exact := by
  unfold enclosed
  split
  · exact List.forall_mem_cons.2 ⟨exact_symbol _, exact_closed h _⟩
  · exact h

theorem Literal.token_exact {value : Literal} (h : value.token.WellFormed)
    (hfloats : value.floats = []) : value.token.Exact := by
  refine ⟨h, fun x hx => ?_⟩
  cases value with
  | float y => simp [Literal.floats] at hfloats
  | _ => cases hx

theorem exact_filterArgs (bare : Bool) (args : List Expr) {ts : List Token}
    (h : ∀ t ∈ ts, t.Exact) : ∀ t ∈ filterArgs bare args ts, t.Exact := by
  unfold filterArgs
  split
  · exact nofun
  · exact List.forall_mem_cons.2 ⟨exact_symbol _, exact_closed h _⟩

mutual

/-- The tokens of an expression without floats can be read back. -/
theorem Expr.tokensWith_exact (bare : Bool) : ∀ e : Expr, e.WellFormed → e.floats = [] →
    ∀ t ∈ e.tokensWith bare, t.Exact
  | .lit value, h, hfloats => List.forall_mem_singleton.2 (Literal.token_exact h hfloats)
  | .var name, h, _ => List.forall_mem_singleton.2 ⟨h, nofun⟩
  | .list items, h, hfloats => by
    have hitems := Expr.tokensOfListWith_exact bare items h hfloats
    rw [Expr.tokensWith]
    exact List.forall_mem_cons.2 ⟨exact_symbol _, exact_closed hitems _⟩
  | .field base name, h, hfloats => by
    have hbase := Expr.tokensWith_exact bare base h.1 hfloats
    have hname := List.forall_mem_singleton.2 (fieldToken_exact h.2)
    rw [Expr.tokensWith]
    exact List.forall_mem_append.2
      ⟨exact_enclosed _ hbase, List.forall_mem_cons.2 ⟨exact_symbol _, hname⟩⟩
  | .index base key, h, hfloats => by
    obtain ⟨hb, hk⟩ := List.append_eq_nil_iff.1 hfloats
    have hbase := Expr.tokensWith_exact bare base h.1 hb
    have hkey := Expr.tokensWith_exact bare key h.2 hk
    rw [Expr.tokensWith]
    exact List.forall_mem_append.2 ⟨exact_enclosed _ hbase,
      List.forall_mem_cons.2 ⟨exact_symbol _, exact_closed hkey _⟩⟩
  | .call name args, h, hfloats => by
    have hargs := Expr.tokensOfListWith_exact bare args h.2 hfloats
    rw [Expr.tokensWith]
    exact List.forall_mem_cons.2 ⟨exact_word h.1.1,
      List.forall_mem_cons.2 ⟨exact_symbol _, exact_closed hargs _⟩⟩
  | .filter input name args, h, hfloats => by
    obtain ⟨hi, ha⟩ := List.append_eq_nil_iff.1 hfloats
    have hinput := Expr.tokensWith_exact bare input h.1 hi
    have hargs := exact_filterArgs bare args (Expr.tokensOfListWith_exact bare args h.2.2 ha)
    rw [Expr.tokensWith]
    exact List.forall_mem_append.2 ⟨exact_enclosed _ hinput, List.forall_mem_cons.2
      ⟨exact_symbol _, List.forall_mem_cons.2 ⟨exact_word h.2.1, hargs⟩⟩⟩
  | .unary op operand, h, hfloats => by
    have hoperand := Expr.tokensWith_exact bare operand h hfloats
    rw [Expr.tokensWith]
    exact List.forall_mem_cons.2 ⟨exact_symbol _, exact_enclosed _ hoperand⟩
  | .binary op left right, h, hfloats => by
    obtain ⟨hl, hr⟩ := List.append_eq_nil_iff.1 hfloats
    have hleft := Expr.tokensWith_exact bare left h.1 hl
    have hright := Expr.tokensWith_exact bare right h.2 hr
    rw [Expr.tokensWith]
    exact List.forall_mem_append.2 ⟨exact_enclosed _ hleft,
      List.forall_mem_cons.2 ⟨exact_symbol _, exact_enclosed _ hright⟩⟩

theorem Expr.tokensOfListWith_exact (bare : Bool) : ∀ es : List Expr, Expr.WellFormedList es →
    Expr.floatsOfList es = [] → ∀ t ∈ Expr.tokensOfListWith bare es, t.Exact
  | [], _, _ => by simp [Expr.tokensOfListWith]
  | [e], h, hfloats => by
    obtain ⟨he, -⟩ := List.append_eq_nil_iff.1 hfloats
    exact Expr.tokensWith_exact bare e h.1 he
  | e :: e' :: es, h, hfloats => by
    obtain ⟨he, hes⟩ := List.append_eq_nil_iff.1 hfloats
    have hfirst := Expr.tokensWith_exact bare e h.1 he
    have hrest := Expr.tokensOfListWith_exact bare (e' :: es) h.2 hes
    rw [Expr.tokensOfListWith]
    exact List.forall_mem_append.2 ⟨hfirst, List.forall_mem_cons.2 ⟨exact_symbol _, hrest⟩⟩

end

end Hashmark
