import Hashmark.Proofs.Grammar.Completeness

/-!
# Reading expressions back

The tokens of an expression derive it (`Expr.derives`), whether its filters are bare or not. So the
parsers read an expression back from its text (`parseExpr_written`), and arguments from theirs
(`parseArgs_written`).
-/

namespace Hashmark

open Expression

theorem Literal.derives (value : Literal) :
    Derives (.operand postfixRank (.lit value)) [value.token] := by
  cases value with
  | null => exact .constant rfl
  | bool value => cases value <;> exact .constant rfl
  | int value => exact .atom rfl
  | float value => exact .atom rfl
  | str value => exact .atom rfl

/-- Parentheses around what binds too loosely. -/
theorem derives_enclosed {e : Expr} {ts : List Token} {rank : Nat}
    (h : Derives (.operand e.rank e) ts) (he : e.rank ≤ postfixRank) (hrank : rank ≤ postfixRank) :
    Derives (.operand rank e) (enclosed (e.rank < rank) ts) := by
  unfold enclosed
  split
  · exact (h.loosen he (Nat.zero_le _)).parens.loosen le_rfl hrank
  · next hneeded => exact h.loosen he (not_lt.1 hneeded)

theorem Expr.rank_le (e : Expr) : e.rank ≤ postfixRank := by
  cases e with
  | binary op left right => exact op.level.rank_lt.le.trans (by decide)
  | unary op operand => exact (by decide : unaryRank ≤ postfixRank)
  | _ => exact le_rfl

theorem derives_list {bare : Bool} {es : List Expr}
    (h : es ≠ [] → Derives (.items es) (Expr.tokensOfListWith bare es)) :
    Derives (.list es) (Expr.tokensOfListWith bare es) := by
  cases es with
  | nil => exact .empty
  | cons e es => exact .full (h (List.cons_ne_nil _ _))

theorem derives_filter {bare : Bool} {input : Expr} {args : List Expr} {ts ts' : List Token}
    (name : String) (hinput : Derives (.operand postfixRank input) ts)
    (hargs : Derives (.list args) ts') :
    Derives (.operand postfixRank (.filter input name args))
      (ts ++ .symbol .bar :: .word name :: filterArgs bare args ts') := by
  unfold filterArgs
  split
  · next hbare =>
    rw [hbare.2]
    exact .pipe hinput
  · exact .filter hinput hargs

theorem fieldName?_fieldToken {name : String} (h : IsFieldName name) :
    fieldName? (fieldToken name) = some name := by
  rcases fieldToken_cases h with ⟨-, htoken⟩ | ⟨n, -, rfl, htoken⟩ <;> rw [htoken] <;> rfl

mutual

/-- **The tokens of an expression derive it.** -/
theorem Expr.derives (bare : Bool) : ∀ e : Expr, e.WellFormed →
    Derives (.operand e.rank e) (e.tokensWith bare)
  | .lit value, _ => value.derives
  | .var _, _ => .atom rfl
  | .list items, h => by
    have hitems := derives_list (Expr.derivesItems bare items h)
    rw [Expr.tokensWith]
    exact hitems.brackets
  | .field base name, h => by
    have hbase := derives_enclosed (Expr.derives bare base h.1) base.rank_le le_rfl
    rw [Expr.tokensWith]
    exact hbase.field (.inr rfl) (fieldName?_fieldToken h.2)
  | .index base key, h => by
    have hbase := derives_enclosed (Expr.derives bare base h.1) base.rank_le le_rfl
    have hkey := (Expr.derives bare key h.2).loosen key.rank_le (Nat.zero_le _)
    rw [Expr.tokensWith]
    exact hbase.index hkey
  | .call name args, h => by
    have hargs := derives_list (Expr.derivesItems bare args h.2)
    rw [Expr.tokensWith]
    exact hargs.call h.1.2.2 h.1.2.1
  | .filter input name args, h => by
    have hinput := derives_enclosed (Expr.derives bare input h.1) input.rank_le le_rfl
    have hargs := derives_list (Expr.derivesItems bare args h.2.2)
    rw [Expr.tokensWith]
    exact derives_filter name hinput hargs
  | .unary op operand, h => by
    have hrank : unaryRank ≤ postfixRank := by decide
    have hoperand := derives_enclosed (Expr.derives bare operand h) operand.rank_le hrank
    rw [Expr.tokensWith]
    exact hoperand.unary op.unaryOperator?_symbol
  | .binary op left right, h => by
    have hrank : op.level.rank + 1 ≤ postfixRank := op.level.rank_lt.trans (by decide)
    have hleft := derives_enclosed (Expr.derives bare left h.1) left.rank_le
      (Nat.le_of_succ_le hrank)
    have hright := derives_enclosed (Expr.derives bare right h.2) right.rank_le hrank
    have hop : op.level.operator? (.symbol op.symbol) = some op := by
      rw [op.operator?_symbol, if_pos rfl]
    rw [Expr.tokensWith]
    exact hleft.binary hop hright

/-- The tokens of some expressions derive them. -/
theorem Expr.derivesItems (bare : Bool) : ∀ es : List Expr, Expr.WellFormedList es → es ≠ [] →
    Derives (.items es) (Expr.tokensOfListWith bare es)
  | [], _, hne => absurd rfl hne
  | [e], h, _ => .item ((Expr.derives bare e h.1).loosen e.rank_le (Nat.zero_le _))
  | e :: e' :: es, h, _ => by
    have hitem := (Expr.derives bare e h.1).loosen e.rank_le (Nat.zero_le _)
    have hitems := Expr.derivesItems bare (e' :: es) h.2 (List.cons_ne_nil _ _)
    rw [Expr.tokensOfListWith]
    exact hitem.cons hitems

end

/-! ### The whole text -/

/-- **An expression is read back from its text.** -/
theorem parseExpr_written {e : Expr} (h : e.WellFormed) (hfloats : e.floats = []) :
    parseExpr (String.ofList e.written) = .ok e := by
  have hexact := e.tokensWith_exact false h hfloats
  have hderives := (e.derives false h).loosen e.rank_le (Nat.zero_le _)
  rw [e.tokensWith_false] at hexact hderives
  exact parseExpr_iff.2 ⟨e.tokens, by simpa [Expr.written] using lexes_written hexact, hderives⟩

/-- Arguments are read back from their text. -/
theorem parseArgs_written {es : List Expr} (hne : es ≠ []) (h : Expr.WellFormedList es)
    (hfloats : Expr.floatsOfList es = []) :
    parseArgs (String.ofList (writtenTokens (Expr.tokensOfList es))) = .ok es := by
  have hexact := Expr.tokensOfListWith_exact false es h hfloats
  have hderives := Expr.derivesItems false es h hne
  rw [Expr.tokensOfListWith_false] at hexact hderives
  exact parseArgs_iff.2 (.inr ⟨_, by simpa using lexes_written hexact, hderives⟩)

end Hashmark
