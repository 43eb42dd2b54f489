import Hashmark.Proofs.Writing.ReadingBack
import Hashmark.Proofs.Writing.Results

/-!
# Printing expressions

An expression is printed with parentheses where the grammar needs them (`Expr.print`): around an
operand that binds less tightly than its place asks for, and around the arguments of calls and of
filters that have some. Parsing inverts printing, and no text with fewer parentheses stands for the
expression (`parseExpr_print`): every derivation has those of the printed text.
-/

namespace Hashmark

open Expression

/-- The text of an expression with the least parentheses. -/
def Expr.print (e : Expr) : String :=
  String.ofList (writtenTokens (e.tokensWith true))

/-- The parentheses that are opened among some tokens. -/
def openParens (ts : List Token) : Nat :=
  ts.count (.symbol .openParen)

/-- The parentheses that are opened in the text of an expression, outside of its strings. -/
def parenCount (text : String) : Nat :=
  match tokenize text with
  | .ok ls => openParens (tokensOf ls)
  | .error _ => 0

theorem parenCount_of_lexes {text : String} {ts : List Token} (h : Lexes text.toList ts) :
    parenCount text = openParens ts := by
  obtain ⟨ls, hls, rfl⟩ := lexes_iff.1 h
  rw [parenCount, hls]

/-! ### Counting parentheses -/

section Parens

variable {t : Token} {ts ts' : List Token}

@[simp] theorem openParens_nil : openParens [] = 0 := rfl

@[simp] theorem openParens_open (ts : List Token) :
    openParens (.symbol .openParen :: ts) = openParens ts + 1 :=
  List.count_cons_self

theorem openParens_cons (ht : t ≠ .symbol .openParen) (ts : List Token) :
    openParens (t :: ts) = openParens ts :=
  List.count_cons_of_ne ht

theorem openParens_le_cons (t : Token) (ts : List Token) : openParens ts ≤ openParens (t :: ts) :=
  List.count_le_count_cons

@[simp] theorem openParens_append : openParens (ts ++ ts') = openParens ts + openParens ts' :=
  List.count_append

@[simp] theorem openParens_symbol {s : Symbol} (hs : s ≠ .openParen) (ts : List Token) :
    openParens (.symbol s :: ts) = openParens ts :=
  openParens_cons (by simp [hs]) ts

@[simp] theorem openParens_word (name : String) (ts : List Token) :
    openParens (.word name :: ts) = openParens ts :=
  openParens_cons (by simp) ts

@[simp] theorem openParens_enclosed (needed : Prop) [Decidable needed] (ts : List Token) :
    openParens (enclosed needed ts) = openParens ts + if needed then 1 else 0 := by
  unfold enclosed
  split <;> simp

@[simp] theorem openParens_filterArgs_nil (ts : List Token) : openParens (filterArgs true [] ts) = 0 := by
  rw [filterArgs, if_pos ⟨rfl, rfl⟩, openParens_nil]

theorem openParens_filterArgs_le (args : List Expr) (ts : List Token) :
    openParens (filterArgs true args ts) ≤ openParens ts + 1 := by
  unfold filterArgs
  split <;> simp

@[simp] theorem openParens_fieldToken (name : String) : openParens [fieldToken name] = 0 := by
  unfold fieldToken
  split <;> rfl

@[simp] theorem openParens_operator (op : BinaryOp) (ts : List Token) :
    openParens (.symbol op.symbol :: ts) = openParens ts :=
  openParens_symbol (by cases op <;> simp [BinaryOp.symbol]) ts

@[simp] theorem openParens_unaryOperator (op : UnaryOp) (ts : List Token) :
    openParens (.symbol op.symbol :: ts) = openParens ts :=
  openParens_symbol (by cases op <;> simp [UnaryOp.symbol]) ts

end Parens

/-! ### The least parentheses -/

namespace Expression

/-- The parentheses in the printed text of a phrase. -/
def Phrase.openParens : Phrase → Nat
  | .operand rank e => Hashmark.openParens (enclosed (e.rank < rank) (e.tokensWith true))
  | .items es | .list es => Hashmark.openParens (Expr.tokensOfListWith true es)

section Phrases

variable {rank : Nat} {e : Expr} {es : List Expr} {name : String}

theorem openParens_operand : (Phrase.operand rank e).openParens =
    Hashmark.openParens (e.tokensWith true) + if e.rank < rank then 1 else 0 :=
  openParens_enclosed _ _

theorem openParens_loosen {rank' : Nat} (h : rank' ≤ rank) :
    (Phrase.operand rank' e).openParens ≤ (Phrase.operand rank e).openParens := by
  rw [openParens_operand, openParens_operand]
  split_ifs <;> omega

/-- Parentheses around an expression are enough for any place. -/
theorem openParens_le_loosest :
    (Phrase.operand rank e).openParens ≤ (Phrase.operand 0 e).openParens + 1 := by
  rw [openParens_operand, openParens_operand]
  split_ifs <;> omega

theorem openParens_brackets :
    (Phrase.operand postfixRank (.list es)).openParens = (Phrase.list es).openParens := by
  simp [Expr.tokensWith, Phrase.openParens]

theorem openParens_call :
    (Phrase.operand postfixRank (.call name es)).openParens =
      (Phrase.list es).openParens + 1 := by
  simp [Expr.tokensWith, Phrase.openParens]

theorem openParens_field :
    (Phrase.operand postfixRank (.field e name)).openParens =
      (Phrase.operand postfixRank e).openParens := by
  simp [openParens_operand, Expr.tokensWith]

theorem openParens_index {key : Expr} :
    (Phrase.operand postfixRank (.index e key)).openParens =
      (Phrase.operand postfixRank e).openParens + (Phrase.operand 0 key).openParens := by
  simp [openParens_operand, Expr.tokensWith]

theorem openParens_pipe :
    (Phrase.operand postfixRank (.filter e name [])).openParens =
      (Phrase.operand postfixRank e).openParens := by
  simp [openParens_operand, Expr.tokensWith]

theorem openParens_filter_le :
    (Phrase.operand postfixRank (.filter e name es)).openParens ≤
      (Phrase.operand postfixRank e).openParens + (Phrase.list es).openParens + 1 := by
  have hargs := openParens_filterArgs_le es (Expr.tokensOfListWith true es)
  simpa [openParens_operand, Expr.tokensWith, Phrase.openParens, Nat.add_assoc] using hargs

theorem openParens_unary (op : UnaryOp) :
    (Phrase.operand unaryRank (.unary op e)).openParens =
      (Phrase.operand unaryRank e).openParens := by
  simp [openParens_operand, Expr.tokensWith]

theorem openParens_binary (op : BinaryOp) {right : Expr} :
    (Phrase.operand op.level.rank (.binary op e right)).openParens =
      (Phrase.operand op.level.rank e).openParens +
        (Phrase.operand (op.level.rank + 1) right).openParens := by
  simp [openParens_operand, Expr.tokensWith]

theorem openParens_item : (Phrase.items [e]).openParens = (Phrase.operand 0 e).openParens := by
  simp [Phrase.openParens, Expr.tokensOfListWith]

/-- Commas are no parentheses. -/
theorem openParens_items_cons (hne : es ≠ []) :
    (Phrase.items (e :: es)).openParens =
      (Phrase.operand 0 e).openParens + (Phrase.items es).openParens := by
  obtain ⟨e', es, rfl⟩ := List.exists_cons_of_ne_nil hne
  simp [Phrase.openParens, Expr.tokensOfListWith]

end Phrases

theorem Level.level_eq {level : Level} {t : Token} {op : BinaryOp}
    (h : level.operator? t = some op) : op.level = level := by
  unfold Level.operator? at h
  split at h <;> cases h <;> rfl

theorem Derives.es_ne_nil {es : List Expr} {ts : List Token} (h : Derives (.items es) ts) :
    es ≠ [] := by
  cases h <;> exact List.cons_ne_nil _ _

/-- **A derivation has the parentheses of the printed text at least.** -/
theorem Derives.openParens_le {p : Phrase} {ts : List Token} (h : Derives p ts) :
    p.openParens ≤ openParens ts := by
  induction h with
  | @atom t _ hatom => cases t <;> cases hatom <;> exact Nat.zero_le _
  | @constant _ value _ => cases value <;> exact Nat.zero_le _
  | name _ _ => exact Nat.zero_le _
  | @parens e ts _ ih =>
    have hloosest : (Phrase.operand postfixRank e).openParens ≤ _ := openParens_le_loosest
    simp only [openParens_open, openParens_append]
    omega
  | brackets _ ih => simpa [openParens_brackets] using ih
  | call _ _ _ ih => simpa [openParens_call] using ih
  | field _ _ _ ih =>
    rw [openParens_field, openParens_append]
    exact Nat.le_add_right_of_le ih
  | index _ _ ihbase ihkey =>
    rw [openParens_index]
    simpa using Nat.add_le_add ihbase ihkey
  | pipe _ ih =>
    rw [openParens_pipe, openParens_append]
    exact Nat.le_add_right_of_le ih
  | filter _ _ ihinput ihargs =>
    have hsum := Nat.succ_le_succ (Nat.add_le_add ihinput ihargs)
    refine openParens_filter_le.trans ?_
    simpa [Nat.add_assoc] using hsum
  | @unary t op e ts _ _ ih =>
    rw [openParens_unary]
    exact ih.trans (openParens_le_cons t ts)
  | @binary level t op left right ts ts' hop _ _ ihleft ihright =>
    obtain rfl := level.level_eq hop
    rw [openParens_binary, openParens_append]
    exact Nat.add_le_add ihleft (ihright.trans (openParens_le_cons t ts'))
  | tighter _ _ ih => exact (openParens_loosen (Nat.le_succ _)).trans ih
  | item _ ih => rwa [openParens_item]
  | cons _ hes ih ihes =>
    rw [openParens_items_cons hes.es_ne_nil]
    simpa using Nat.add_le_add ih ihes
  | empty => exact Nat.zero_le _
  | full _ ih => exact ih

end Expression

theorem lexes_print {e : Expr} (h : e.WellFormed) (hfloats : e.floats = []) :
    Lexes e.print.toList (e.tokensWith true) := by
  rw [Expr.print, String.toList_ofList]
  exact lexes_written (e.tokensWith_exact true h hfloats)

/-- **Parsing inverts printing**, for every expression without floats that some text stands for; and
among the texts that stand for it, the printed one has the least parentheses. -/
theorem parseExpr_print {text : String} {e : Expr} (h : parseExpr text = .ok e)
    (hfloats : e.floats = []) :
    parseExpr e.print = .ok e ∧
      ∀ text', parseExpr text' = .ok e → parenCount e.print ≤ parenCount text' := by
  have hformed := wellFormed_of_parseExpr h
  have hprint := lexes_print hformed hfloats
  have hderives := (e.derives true hformed).loosen e.rank_le (Nat.zero_le _)
  refine ⟨parseExpr_iff.2 ⟨_, hprint, hderives⟩, fun text' h' => ?_⟩
  obtain ⟨ts, hlexes, hderives'⟩ := parseExpr_iff.1 h'
  have hleast := hderives'.openParens_le
  rw [openParens_operand, if_neg (Nat.not_lt_zero _)] at hleast
  rwa [parenCount_of_lexes hprint, parenCount_of_lexes hlexes]

/-- The parentheses around a sum that is negated stay, the other ones go. -/
theorem parseExpr_print_negated :
    let e : Expr := .unary .neg (.binary .add (.filter (.var "a") "upper" [])
      (.binary .mul (.lit (.str "it's")) (.field (.var "b") "0")))
    parseExpr "(-((a | upper()) + (\"it's\" * b.0)))" = .ok e ∧
      e.print = "- ($a | upper + 'it\\'s' * $b->0)" ∧ parseExpr e.print = .ok e := by
  intro e
  have h : parseExpr "(-((a | upper()) + (\"it's\" * b.0)))" = .ok e := by cbv
  have hprint : e.print = "- ($a | upper + 'it\\'s' * $b->0)" := by cbv
  exact ⟨h, hprint, (parseExpr_print h rfl).1⟩

end Hashmark
