import Hashmark.Proofs.Writing.Expressions

/-!
# The grammar of expressions

`Derives` says which tokens stand for which expression: it is the grammar in the head of the parser,
without any order in which the tokens are read. What a parser returns has a derivation from the
tokens that it takes (`derives_of_parseLevel`). The places of the grammar are told apart by their
ranks: those of the levels of binary operators, then that of the operators in front of an operand,
then that of what binds from behind.
-/

namespace Hashmark.Expression

open Lexer (bind_eq_ok)

/-! ### Derivations -/

/-- What tokens may stand for. -/
inductive Phrase where
  /-- An expression in a place of a rank. -/
  | operand (rank : Nat) (e : Expr)
  /-- Expressions with commas between them, at least one. -/
  | items (es : List Expr)
  /-- What stands between the brackets of a list: items or nothing. -/
  | list (es : List Expr)

/-- The name of the field that a token stands for. -/
def fieldName? : Token → Option String
  | .word name => some name
  | .int value => some (toString value)
  | _ => none

/-- Whether tokens stand for a phrase. -/
inductive Derives : Phrase → List Token → Prop
  /-- A variable or a literal. -/
  | atom {t : Token} {e : Expr} (h : atom? t = some e) : Derives (.operand postfixRank e) [t]
  | constant {name : String} {value : Literal} (h : constant? name = some value) :
      Derives (.operand postfixRank (.lit value)) [.word name]
  /-- A name that is no constant stands for a variable. -/
  | name {name : String} (hconstant : constant? name = none) (hnot : name ≠ "not") :
      Derives (.operand postfixRank (.var name)) [.word name]
  | parens {e : Expr} {ts : List Token} (h : Derives (.operand 0 e) ts) :
      Derives (.operand postfixRank e) (.symbol .openParen :: (ts ++ [.symbol .closeParen]))
  | brackets {es : List Expr} {ts : List Token} (h : Derives (.list es) ts) :
      Derives (.operand postfixRank (.list es))
        (.symbol .openBracket :: (ts ++ [.symbol .closeBracket]))
  | call {name : String} {args : List Expr} {ts : List Token} (hconstant : constant? name = none)
      (hnot : name ≠ "not") (h : Derives (.list args) ts) :
      Derives (.operand postfixRank (.call name args))
        (.word name :: .symbol .openParen :: (ts ++ [.symbol .closeParen]))
  | field {base : Expr} {name : String} {ts : List Token} {access : Symbol} {t : Token}
      (hbase : Derives (.operand postfixRank base) ts) (haccess : access = .dot ∨ access = .arrow)
      (hname : fieldName? t = some name) :
      Derives (.operand postfixRank (.field base name)) (ts ++ [.symbol access, t])
  | index {base key : Expr} {ts ts' : List Token} (hbase : Derives (.operand postfixRank base) ts)
      (hkey : Derives (.operand 0 key) ts') :
      Derives (.operand postfixRank (.index base key))
        (ts ++ .symbol .openBracket :: (ts' ++ [.symbol .closeBracket]))
  /-- A filter without arguments needs no parentheses. -/
  | pipe {input : Expr} {name : String} {ts : List Token}
      (hinput : Derives (.operand postfixRank input) ts) :
      Derives (.operand postfixRank (.filter input name [])) (ts ++ [.symbol .bar, .word name])
  | filter {input : Expr} {name : String} {args : List Expr} {ts ts' : List Token}
      (hinput : Derives (.operand postfixRank input) ts) (hargs : Derives (.list args) ts') :
      Derives (.operand postfixRank (.filter input name args))
        (ts ++ .symbol .bar :: .word name :: .symbol .openParen ::
          (ts' ++ [.symbol .closeParen]))
  | unary {t : Token} {op : UnaryOp} {e : Expr} {ts : List Token}
      (hop : unaryOperator? t = some op) (h : Derives (.operand unaryRank e) ts) :
      Derives (.operand unaryRank (.unary op e)) (t :: ts)
  /-- Binary operators associate to the left. -/
  | binary {level : Level} {t : Token} {op : BinaryOp} {left right : Expr} {ts ts' : List Token}
      (hop : level.operator? t = some op) (hleft : Derives (.operand level.rank left) ts)
      (hright : Derives (.operand (level.rank + 1) right) ts') :
      Derives (.operand level.rank (.binary op left right)) (ts ++ t :: ts')
  /-- What binds more tightly than a place asks for. -/
  | tighter {rank : Nat} {e : Expr} {ts : List Token} (hrank : rank < postfixRank)
      (h : Derives (.operand (rank + 1) e) ts) : Derives (.operand rank e) ts
  | item {e : Expr} {ts : List Token} (h : Derives (.operand 0 e) ts) : Derives (.items [e]) ts
  | cons {e : Expr} {es : List Expr} {ts ts' : List Token} (h : Derives (.operand 0 e) ts)
      (hes : Derives (.items es) ts') : Derives (.items (e :: es)) (ts ++ .symbol .comma :: ts')
  | empty : Derives (.list []) []
  | full {es : List Expr} {ts : List Token} (h : Derives (.items es) ts) : Derives (.list es) ts

/-- An expression may stand in any place that asks for less. -/
theorem Derives.loosen {rank rank' : Nat} {e : Expr} {ts : List Token}
    (h : Derives (.operand rank e) ts) (hrank : rank ≤ postfixRank) (hle : rank' ≤ rank) :
    Derives (.operand rank' e) ts := by
  induction rank, hle using Nat.le_induction with
  | base => exact h
  | succ rank hle ih =>
    exact ih (.tighter (Nat.lt_of_succ_le hrank) h) (Nat.le_of_succ_le hrank)

/-! ### What the parsers take -/

/-- Whether what a parser returns stands for the tokens that it takes off the front. -/
def Takes {α : Type} (P : α → List Token → Prop) (ts : Lexemes)
    (x : Except ExprError (α × Lexemes)) : Prop :=
  ∀ a rest, x = .ok (a, rest) → ∃ ls, ts = ls ++ rest ∧ P a (tokensOf ls)

section Takes

variable {α β : Type} {P : α → List Token → Prop} {Q : β → List Token → Prop} {ts : Lexemes}

theorem takes_error (e : ExprError) : Takes P ts (.error e) :=
  nofun

theorem takes_nothing {a : α} (h : P a []) : Takes P ts (.ok (a, ts)) := by
  rintro _ _ ⟨⟩
  exact ⟨[], rfl, h⟩

theorem Takes.imp {x : Except ExprError (α × Lexemes)} {P' : α → List Token → Prop}
    (hx : Takes P ts x) (himp : ∀ a more, P a more → P' a more) : Takes P' ts x := by
  intro a rest h
  obtain ⟨ls, hts, hP⟩ := hx a rest h
  exact ⟨ls, hts, himp a _ hP⟩

/-- A token that is taken before the parser runs. -/
theorem Takes.cons {x : Except ExprError (α × Lexemes)} {lexeme : Lexeme}
    (hx : Takes (fun a more => P a (lexeme.token :: more)) ts x) : Takes P (lexeme :: ts) x := by
  intro a rest h
  obtain ⟨ls, rfl, hP⟩ := hx a rest h
  exact ⟨lexeme :: ls, rfl, hP⟩

/-- One parser behind another. -/
theorem Takes.bind {x : Except ExprError (α × Lexemes)}
    {f : α × Lexemes → Except ExprError (β × Lexemes)} (hx : Takes P ts x)
    (hf : ∀ a ls rest, P a ls → Takes (fun b more => Q b (ls ++ more)) rest (f (a, rest))) :
    Takes Q ts (x >>= f) := by
  intro b rest h
  obtain ⟨⟨a, next⟩, ha, h⟩ := bind_eq_ok.1 h
  obtain ⟨ls, rfl, hP⟩ := hx a next ha
  obtain ⟨more, rfl, hQ⟩ := hf a (tokensOf ls) next hP b rest h
  refine ⟨ls ++ more, (List.append_assoc ..).symm, ?_⟩
  rwa [tokensOf_append]

/-- A symbol that must come next. -/
theorem takes_expectSymbol {stop : Nat} {symbol : Symbol}
    {f : Lexemes → Except ExprError (β × Lexemes)}
    (hf : ∀ rest, Takes (fun b more => Q b (.symbol symbol :: more)) rest (f rest)) :
    Takes Q ts (expectSymbol stop symbol ts >>= f) := by
  cases ts with
  | nil => exact takes_error _
  | cons lexeme rest =>
    rw [expectSymbol]
    split
    · next htoken =>
      refine Takes.cons ?_
      rw [htoken]
      exact hf rest
    · exact takes_error _

end Takes

theorem takes_readField {stop : Nat} {ts : Lexemes} :
    Takes (fun name more => ∃ t, more = [t] ∧ fieldName? t = some name) ts (readField stop ts) := by
  cases ts with
  | nil => exact takes_error _
  | cons lexeme rest =>
    obtain ⟨t, offset⟩ := lexeme
    cases t with
    | word name => exact .cons (takes_nothing ⟨_, rfl, rfl⟩)
    | int value => exact .cons (takes_nothing ⟨_, rfl, rfl⟩)
    | _ => exact takes_error _

theorem takes_readFilter {stop : Nat} {ts : Lexemes} :
    Takes (fun name more => more = [.word name]) ts (readFilter stop ts) := by
  cases ts with
  | nil => exact takes_error _
  | cons lexeme rest =>
    obtain ⟨t, offset⟩ := lexeme
    cases t with
    | word name => exact .cons (takes_nothing rfl)
    | _ => exact takes_error _

/-- Whether the next lexeme is not the operator `not`. -/
def NoNot (ts : Lexemes) : Prop :=
  ∀ lexeme ∈ ts.head?, lexeme.token ≠ .word "not"

/-- The arguments of a filter, with their parentheses if there are any. -/
def DerivesArgs (args : List Expr) (ts : List Token) : Prop :=
  (args = [] ∧ ts = []) ∨
    ∃ inner, ts = .symbol .openParen :: (inner ++ [.symbol .closeParen]) ∧
      Derives (.list args) inner

/-- A list and the bracket that closes it. -/
def DerivesClosed (close : Symbol) (es : List Expr) (ts : List Token) : Prop :=
  ∃ inner, ts = inner ++ [.symbol close] ∧ Derives (.list es) inner

/-- What each parser takes with so many calls allowed. -/
structure Sound (fuel : Nat) : Prop where
  level : ∀ stop level ts, Takes (fun e => Derives (.operand level.rank e)) ts
    (parseLevel fuel stop level ts)
  operand : ∀ stop level ts, Takes (fun e => Derives (.operand (level.rank + 1) e)) ts
    (parseOperand fuel stop level ts)
  operators : ∀ stop level left done ts, Derives (.operand level.rank left) done →
    Takes (fun e more => Derives (.operand level.rank e) (done ++ more)) ts
      (parseOperators fuel stop level left ts)
  unary : ∀ stop ts, Takes (fun e => Derives (.operand unaryRank e)) ts (parseUnary fuel stop ts)
  behind : ∀ stop ts, NoNot ts → Takes (fun e => Derives (.operand postfixRank e)) ts
    (parsePostfix fuel stop ts)
  accesses : ∀ stop base done ts, Derives (.operand postfixRank base) done →
    Takes (fun e more => Derives (.operand postfixRank e) (done ++ more)) ts
      (parseAccesses fuel stop base ts)
  optionalArgs : ∀ stop ts, Takes DerivesArgs ts (parseOptionalArgs fuel stop ts)
  primary : ∀ stop ts, NoNot ts → Takes (fun e => Derives (.operand postfixRank e)) ts
    (parsePrimary fuel stop ts)
  list : ∀ stop close ts, Takes (DerivesClosed close) ts (parseList fuel stop close ts)
  items : ∀ stop ts, Takes (fun es => Derives (.items es)) ts (parseItems fuel stop ts)

section Steps

variable {fuel stop : Nat} {ts : Lexemes}

theorem Sound.step_operators (h : Sound fuel) {level : Level} {left : Expr} {done : List Token}
    (hleft : Derives (.operand level.rank left) done) :
    Takes (fun e more => Derives (.operand level.rank e) (done ++ more)) ts
      (parseOperators (fuel + 1) stop level left ts) := by
  have hnone : Derives (.operand level.rank left) (done ++ []) := by rwa [List.append_nil]
  cases ts with
  | nil => exact takes_nothing hnone
  | cons lexeme rest =>
    simp only [parseOperators]
    split
    · next op hop =>
      refine .cons ((h.operand stop level rest).bind fun right ls rest hright => ?_)
      have hbinary := hleft.binary hop hright
      exact (h.operators stop level _ _ rest hbinary).imp fun _ _ hall => by simpa using hall
    · exact takes_nothing hnone

theorem Sound.step_unary (h : Sound fuel) :
    Takes (fun e => Derives (.operand unaryRank e)) ts (parseUnary (fuel + 1) stop ts) := by
  have hbehind (ts : Lexemes) (hts : NoNot ts) : Takes (fun e => Derives (.operand unaryRank e)) ts
      (parsePostfix fuel stop ts) :=
    (h.behind stop ts hts).imp fun _ _ hall => .tighter (by decide) hall
  cases ts with
  | nil => exact hbehind [] nofun
  | cons lexeme rest =>
    simp only [parseUnary]
    split
    · next op hop =>
      refine .cons ((h.unary stop rest).bind fun operand ls rest hoperand => ?_)
      exact takes_nothing (by simpa using hoperand.unary hop)
    · next hnone =>
      refine hbehind _ ?_
      rintro _ ⟨⟩ hnot
      rw [hnot] at hnone
      cases hnone

theorem Sound.step_accesses (h : Sound fuel) {base : Expr} {done : List Token}
    (hbase : Derives (.operand postfixRank base) done) :
    Takes (fun e more => Derives (.operand postfixRank e) (done ++ more)) ts
      (parseAccesses (fuel + 1) stop base ts) := by
  have hnone : Derives (.operand postfixRank base) (done ++ []) := by rwa [List.append_nil]
  cases ts with
  | nil => exact takes_nothing hnone
  | cons lexeme rest =>
    have hfield (access : Symbol) (haccess : access = .dot ∨ access = .arrow) :
        Takes (fun e more => Derives (.operand postfixRank e) (done ++ .symbol access :: more)) rest
          (readField stop rest >>= fun r => parseAccesses fuel stop (.field base r.1) r.2) := by
      refine takes_readField.bind ?_
      rintro name _ rest ⟨t, rfl, ht⟩
      have hall := hbase.field haccess ht
      exact (h.accesses stop _ _ rest hall).imp fun _ _ hall => by simpa using hall
    simp only [parseAccesses]
    split
    · next htoken => exact .cons (by rw [htoken]; exact hfield .dot (.inl rfl))
    · next htoken => exact .cons (by rw [htoken]; exact hfield .arrow (.inr rfl))
    · next htoken =>
      refine .cons ?_
      rw [htoken]
      refine (h.level stop .or rest).bind fun key ls rest hkey => takes_expectSymbol fun rest => ?_
      have hall := hbase.index hkey
      exact (h.accesses stop _ _ rest hall).imp fun _ _ hall => by simpa using hall
    · next htoken =>
      refine .cons ?_
      rw [htoken]
      refine takes_readFilter.bind ?_
      rintro name _ rest rfl
      refine (h.optionalArgs stop rest).bind ?_
      rintro args _ rest (⟨rfl, rfl⟩ | ⟨inner, rfl, hargs⟩)
      · have hall := @Derives.pipe base name done hbase
        exact (h.accesses stop _ _ rest hall).imp fun _ _ hall => by simpa using hall
      · have hall := @Derives.filter base name args done inner hbase hargs
        exact (h.accesses stop _ _ rest hall).imp fun _ _ hall => by simpa using hall
    · exact takes_nothing hnone

theorem Sound.step_optionalArgs (h : Sound fuel) :
    Takes DerivesArgs ts (parseOptionalArgs (fuel + 1) stop ts) := by
  cases ts with
  | nil => exact takes_nothing (.inl ⟨rfl, rfl⟩)
  | cons lexeme rest =>
    simp only [parseOptionalArgs]
    split
    · next htoken =>
      refine .cons ?_
      rw [htoken]
      refine (h.list stop .closeParen rest).imp ?_
      rintro args _ ⟨inner, rfl, hargs⟩
      exact .inr ⟨inner, rfl, hargs⟩
    · exact takes_nothing (.inl ⟨rfl, rfl⟩)

theorem Sound.step_primary (h : Sound fuel) (hnot : NoNot ts) :
    Takes (fun e => Derives (.operand postfixRank e)) ts (parsePrimary (fuel + 1) stop ts) := by
  cases ts with
  | nil => exact takes_error _
  | cons lexeme rest =>
    obtain ⟨t, offset⟩ := lexeme
    have hword : t ≠ .word "not" := hnot _ rfl
    simp only [parsePrimary]
    split
    · next hatom => exact .cons (takes_nothing (.atom hatom))
    · split
      · next name hnone =>
        have hname : name ≠ "not" := fun heq => hword (congrArg Token.word heq)
        refine .cons ?_
        split
        · next hconstant => exact takes_nothing (.constant hconstant)
        · next hconstant =>
          split
          · exact takes_nothing (.name hconstant hname)
          · next next tail =>
            split
            · next htoken =>
              refine .cons ?_
              rw [htoken]
              refine (h.list stop .closeParen tail).bind ?_
              rintro args _ tail ⟨inner, rfl, hargs⟩
              exact takes_nothing (by simpa using hargs.call hconstant hname)
            · exact takes_nothing (.name hconstant hname)
      · refine .cons ((h.level stop .or rest).bind fun inner ls rest hinner => ?_)
        exact takes_expectSymbol fun rest => takes_nothing hinner.parens
      · refine .cons ((h.list stop .closeBracket rest).bind ?_)
        rintro items _ rest ⟨inner, rfl, hitems⟩
        exact takes_nothing (by simpa using hitems.brackets)
      · exact takes_error _

theorem Sound.step_list (h : Sound fuel) {close : Symbol} :
    Takes (DerivesClosed close) ts (parseList (fuel + 1) stop close ts) := by
  have hitems : Takes (DerivesClosed close) ts (parseItems fuel stop ts >>= fun r =>
      expectSymbol stop close r.2 >>= fun rest => pure (r.1, rest)) :=
    (h.items stop ts).bind fun items ls rest hitems => takes_expectSymbol fun rest =>
      takes_nothing ⟨ls, by simp, .full hitems⟩
  cases ts with
  | nil => exact hitems
  | cons lexeme rest =>
    simp only [parseList]
    split
    · next htoken => exact .cons (takes_nothing ⟨[], by rw [htoken]; rfl, .empty⟩)
    · exact hitems

theorem Sound.step_items (h : Sound fuel) :
    Takes (fun es => Derives (.items es)) ts (parseItems (fuel + 1) stop ts) := by
  refine (h.level stop .or ts).bind fun item ls rest hitem => ?_
  have hlast : Derives (.items [item]) (ls ++ []) := by
    rw [List.append_nil]
    exact .item hitem
  cases rest with
  | nil => exact takes_nothing hlast
  | cons lexeme rest =>
    dsimp only
    split
    · next htoken =>
      refine .cons ((h.items stop rest).bind fun items more rest hitems => takes_nothing ?_)
      rw [htoken]
      simpa using Derives.cons hitem hitems
    · exact takes_nothing hlast

end Steps

/-- **What the parsers return has a derivation** from the tokens that they take. -/
theorem sound (fuel : Nat) : Sound fuel := by
  induction fuel with
  | zero => constructor <;> intros <;> exact takes_error _
  | succ fuel ih =>
    constructor
    case level =>
      intro stop level ts
      exact (ih.operand stop level ts).bind fun left ls rest hleft =>
        ih.operators stop level left ls rest (.tighter (by cases level <;> decide) hleft)
    case operand =>
      intro stop level ts
      simp only [parseOperand]
      cases level with
      | product => exact ih.unary stop ts
      | _ => exact ih.level stop _ ts
    case operators => exact fun stop level left done ts hleft => ih.step_operators hleft
    case unary => exact fun stop ts => ih.step_unary
    case behind =>
      intro stop ts hnot
      exact (ih.primary stop ts hnot).bind fun base ls rest hbase =>
        ih.accesses stop base ls rest hbase
    case accesses => exact fun stop base done ts hbase => ih.step_accesses hbase
    case optionalArgs => exact fun stop ts => ih.step_optionalArgs
    case primary => exact fun stop ts hnot => ih.step_primary hnot
    case list => exact fun stop close ts => ih.step_list
    case items => exact fun stop ts => ih.step_items

end Hashmark.Expression
