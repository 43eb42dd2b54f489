import Hashmark.Proofs.Grammar.Derivations

/-!
# Operands

What the parsers of the places of the grammar do on the lexemes of an operand, in front of any
others. What a parser of a level does is to come to its own loop with the operand as what is on the
left (`OpensLevel`, `OpensPostfix`): stated so, the operands of a chain of operators can be put one
behind the other. From there the loop goes on or stops, by what comes next (`Stops`). An operand that
binds tightly is read by the parsers of all looser places too (`Spells`).
-/

namespace Hashmark.Expression

/-! ### Lexemes by their tokens -/

theorem tokensOf_eq_cons {ls : Lexemes} {t : Token} {ts : List Token} :
    tokensOf ls = t :: ts ↔ ∃ offset rest, ls = ⟨t, offset⟩ :: rest ∧ tokensOf rest = ts := by
  constructor
  · intro h
    obtain ⟨⟨token, offset⟩, rest, rfl, rfl, hrest⟩ := List.map_eq_cons_iff.1 h
    exact ⟨offset, rest, rfl, hrest⟩
  · rintro ⟨offset, rest, rfl, rfl⟩
    rfl

theorem tokensOf_eq_singleton {ls : Lexemes} {t : Token} :
    tokensOf ls = [t] ↔ ∃ offset, ls = [⟨t, offset⟩] := by
  rw [tokensOf_eq_cons]
  simp [tokensOf]

theorem tokensOf_eq_append {ls : Lexemes} {ts ts' : List Token} :
    tokensOf ls = ts ++ ts' ↔ ∃ front back, ls = front ++ back ∧ tokensOf front = ts ∧
      tokensOf back = ts' :=
  List.map_eq_append_iff

/-- Lexemes of some tokens between brackets. -/
theorem exists_of_tokensOf_eq_brackets {ls : Lexemes} {opens closes : Token} {ts : List Token}
    (h : tokensOf ls = opens :: (ts ++ [closes])) :
    ∃ opening inner closing, ls = ⟨opens, opening⟩ :: (inner ++ [⟨closes, closing⟩]) ∧
      tokensOf inner = ts := by
  obtain ⟨opening, rest, rfl, hrest⟩ := tokensOf_eq_cons.1 h
  obtain ⟨inner, last, rfl, hinner, hlast⟩ := tokensOf_eq_append.1 hrest
  obtain ⟨closing, rfl⟩ := tokensOf_eq_singleton.1 hlast
  exact ⟨opening, inner, closing, rfl, hinner⟩

/-! ### Where an operand ends -/

/-- The tokens that go on with an operand: they begin a field, an index, a filter or arguments. -/
def Token.continues : Token → Bool
  | .symbol .dot | .symbol .arrow | .symbol .openBracket | .symbol .bar | .symbol .openParen => true
  | _ => false

/-- Whether an operand in a place of the given rank ends in front of some lexemes: what comes next
binds less tightly. -/
def Stops (rank : Nat) (rest : Lexemes) : Prop :=
  ∀ lexeme ∈ rest.head?, lexeme.token.continues = false ∧
    ∀ level : Level, rank ≤ level.rank → level.operator? lexeme.token = none

/-- Whether no arguments follow. -/
def NoArgs (rest : Lexemes) : Prop :=
  ∀ lexeme ∈ rest.head?, lexeme.token ≠ .symbol .openParen

theorem stops_nil (rank : Nat) : Stops rank [] :=
  nofun

theorem Stops.mono {k k' : Nat} {rest : Lexemes} (h : Stops k rest) (hk : k ≤ k') :
    Stops k' rest :=
  fun lexeme hlexeme => ⟨(h lexeme hlexeme).1, fun level hlevel =>
    (h lexeme hlexeme).2 level (hk.trans hlevel)⟩

theorem Stops.noArgs {rank : Nat} {rest : Lexemes} (h : Stops rank rest) : NoArgs rest := by
  intro lexeme hlexeme htoken
  have hcontinues := (h lexeme hlexeme).1
  rw [htoken] at hcontinues
  cases hcontinues

theorem noArgs_cons {t : Token} (ht : t ≠ .symbol .openParen) (offset : Nat) (rest : Lexemes) :
    NoArgs (⟨t, offset⟩ :: rest) := by
  rintro _ ⟨⟩
  exact ht

/-- A bracket or a comma ends every operand. -/
theorem stops_symbol (s : Symbol) (hs : s.closes = true) (harrow : s ≠ .arrow) (rank offset : Nat)
    (rest : Lexemes) : Stops rank (⟨.symbol s, offset⟩ :: rest) := by
  rintro _ ⟨⟩
  cases s <;> simp [Symbol.closes] at hs harrow <;>
    exact ⟨rfl, fun level _ => by cases level <;> rfl⟩

/-- A token is an operator of one level at most, and goes on with no operand then. -/
theorem Level.operator?_eq_none {level level' : Level} {t : Token} {op : BinaryOp}
    (h : level.operator? t = some op) (hne : level' ≠ level) : level'.operator? t = none := by
  unfold Level.operator? at h
  split at h <;> cases h <;> cases level' <;> first | rfl | exact absurd rfl hne

theorem Level.continues_eq_false {level : Level} {t : Token} {op : BinaryOp}
    (h : level.operator? t = some op) : t.continues = false := by
  unfold Level.operator? at h
  split at h <;> cases h <;> rfl

/-- A binary operator ends every operand that binds more tightly. -/
theorem stops_operator {level : Level} {t : Token} {op : BinaryOp}
    (h : level.operator? t = some op) (offset : Nat) (rest : Lexemes) :
    Stops (level.rank + 1) (⟨t, offset⟩ :: rest) := by
  rintro _ ⟨⟩
  refine ⟨level.continues_eq_false h, fun level' hlevel => level.operator?_eq_none h ?_⟩
  rintro rfl
  omega

section Loops

variable {fuel stop rank : Nat} {level : Level} {e : Expr} {rest : Lexemes}

theorem parseAccesses_of_stops (hfuel : 0 < fuel) (h : Stops rank rest) :
    parseAccesses fuel stop e rest = .ok (e, rest) := by
  obtain ⟨fuel, rfl⟩ := Nat.exists_eq_succ_of_ne_zero hfuel.ne'
  cases rest with
  | nil => simp [parseAccesses]
  | cons lexeme rest =>
    have hcontinues := (h lexeme rfl).1
    simp only [parseAccesses]
    split <;> simp_all [Token.continues]

theorem parseOperators_of_stops (hfuel : 0 < fuel) (h : Stops level.rank rest) :
    parseOperators fuel stop level e rest = .ok (e, rest) := by
  obtain ⟨fuel, rfl⟩ := Nat.exists_eq_succ_of_ne_zero hfuel.ne'
  cases rest with
  | nil => simp [parseOperators]
  | cons lexeme rest =>
    have hnone := (h lexeme rfl).2 level le_rfl
    simp only [parseOperators, hnone]

end Loops

/-! ### Operands -/

/-- The parser of the operands of a rank. -/
def parseRank (fuel stop : Nat) : Nat → Lexemes → Except ExprError (Expr × Lexemes)
  | 0 => parseLevel fuel stop .or
  | 1 => parseLevel fuel stop .and
  | 2 => parseLevel fuel stop .comparison
  | 3 => parseLevel fuel stop .sum
  | 4 => parseLevel fuel stop .product
  | 5 => parseUnary fuel stop
  | _ => parsePostfix fuel stop

theorem parseRank_level (fuel stop : Nat) (level : Level) (ts : Lexemes) :
    parseRank fuel stop level.rank ts = parseLevel fuel stop level ts := by
  cases level <;> rfl

/-- The operands of a level are those of the next rank. -/
theorem parseOperand_eq (fuel stop : Nat) (level : Level) (ts : Lexemes) :
    parseOperand (fuel + 1) stop level ts = parseRank fuel stop (level.rank + 1) ts := by
  cases level <;> simp only [parseOperand] <;> rfl

/-- The calls that are enough for an operand of a rank with `n` lexemes. -/
def enough (rank n : Nat) : Nat :=
  20 * n + (12 - 2 * rank)

section Operands

variable {e : Expr} {ls : Lexemes} {rank : Nat} {level : Level}

/-- The parser of a rank reads the lexemes as the expression. -/
def ReadsAt (rank : Nat) (e : Expr) (ls : Lexemes) : Prop :=
  ∀ fuel stop rest, enough rank ls.length ≤ fuel → Stops rank rest →
    parseRank fuel stop rank (ls ++ rest) = .ok (e, rest)

/-- The parser of a level comes to its loop with the expression read. -/
def OpensLevel (level : Level) (e : Expr) (ls : Lexemes) : Prop :=
  ∀ fuel stop rest, enough level.rank ls.length ≤ fuel → Stops (level.rank + 1) rest →
    ∃ left, fuel ≤ left + ls.length ∧
      parseLevel fuel stop level (ls ++ rest) = parseOperators left stop level e rest

/-- The parser of what binds from behind comes to its loop with the expression read. A name that
arguments follow would be read as a call. -/
def OpensPostfix (e : Expr) (ls : Lexemes) : Prop :=
  ∀ fuel stop rest, enough postfixRank ls.length ≤ fuel → NoArgs rest →
    ∃ left, fuel ≤ left + ls.length ∧
      parsePostfix fuel stop (ls ++ rest) = parseAccesses left stop e rest

theorem OpensLevel.readsAt (h : OpensLevel level e ls) : ReadsAt level.rank e ls := by
  intro fuel stop rest hfuel hstops
  obtain ⟨left, hleft, hparse⟩ := h fuel stop rest hfuel (hstops.mono (Nat.le_succ _))
  have hrank : level.rank ≤ 4 := by cases level <;> decide
  have hpos : 0 < left := by
    simp only [enough] at hfuel
    omega
  rw [parseRank_level, hparse, parseOperators_of_stops hpos hstops]

theorem OpensPostfix.readsAt (hne : ls ≠ []) (h : OpensPostfix e ls) :
    ReadsAt postfixRank e ls := by
  intro fuel stop rest hfuel hstops
  obtain ⟨left, hleft, hparse⟩ := h fuel stop rest hfuel hstops.noArgs
  have hlength := List.length_pos_iff.2 hne
  have hpos : 0 < left := by
    simp only [enough] at hfuel
    omega
  rw [show parseRank fuel stop postfixRank (ls ++ rest) = parsePostfix fuel stop (ls ++ rest) from
    rfl, hparse, parseAccesses_of_stops hpos hstops]

/-- An operand of a level is an expression of the level. -/
theorem ReadsAt.opensLevel (hne : ls ≠ []) (h : ReadsAt (level.rank + 1) e ls) :
    OpensLevel level e ls := by
  intro fuel stop rest hfuel hstops
  have hlength := List.length_pos_iff.2 hne
  have hrank : level.rank ≤ 4 := by cases level <;> decide
  simp only [enough] at hfuel
  obtain ⟨fuel, rfl⟩ := Nat.exists_eq_add_of_le' (show 2 ≤ fuel by omega)
  have hread := h fuel stop rest (by simp only [enough]; omega) hstops
  refine ⟨fuel + 1, by omega, ?_⟩
  simp only [parseLevel, parseOperand_eq, hread]
  rfl

end Operands

/-! ### What lexemes spell -/

/-- Whether lexemes begin as an operand of a rank: no bracket closes there, and what binds from
behind follows no operator. -/
def Leads (rank : Nat) (ls : Lexemes) : Prop :=
  ∃ first rest, ls = first :: rest ∧ first.token ≠ .symbol .closeParen ∧
    first.token ≠ .symbol .closeBracket ∧
    (postfixRank ≤ rank → unaryOperator? first.token = none)

/-- Whether lexemes are read as an expression by every parser up to a rank. -/
structure Spells (rank : Nat) (e : Expr) (ls : Lexemes) : Prop where
  leads : Leads rank ls
  opensLevel : ∀ level : Level, level.rank ≤ rank → OpensLevel level e ls
  readsUnary : unaryRank ≤ rank → ReadsAt unaryRank e ls
  opensPostfix : postfixRank ≤ rank → OpensPostfix e ls

section Spells

variable {e : Expr} {ls : Lexemes} {rank : Nat} {level : Level}

theorem Leads.ne_nil (h : Leads rank ls) : ls ≠ [] := by
  obtain ⟨first, rest, rfl, -⟩ := h
  exact List.cons_ne_nil _ _

theorem Leads.length_pos (h : Leads rank ls) : 0 < ls.length :=
  List.length_pos_iff.2 h.ne_nil

theorem Leads.append (h : Leads rank ls) (ls' : Lexemes) : Leads rank (ls ++ ls') := by
  obtain ⟨first, rest, rfl, hfirst⟩ := h
  exact ⟨first, rest ++ ls', rfl, hfirst⟩

theorem Leads.mono {rank' : Nat} (h : Leads rank ls) (hrank : rank' ≤ rank) : Leads rank' ls := by
  obtain ⟨first, rest, rfl, hparen, hbracket, hunary⟩ := h
  exact ⟨first, rest, rfl, hparen, hbracket, fun h => hunary (h.trans hrank)⟩

theorem exists_level {n : Nat} (h : n < unaryRank) : ∃ level : Level, level.rank = n := by
  simp only [unaryRank] at h
  interval_cases n
  exacts [⟨.or, rfl⟩, ⟨.and, rfl⟩, ⟨.comparison, rfl⟩, ⟨.sum, rfl⟩, ⟨.product, rfl⟩]

theorem Level.rank_lt (level : Level) : level.rank < unaryRank := by
  cases level <;> decide

theorem Level.rank_injective : Function.Injective Level.rank := by
  intro a b h
  cases a <;> cases b <;> simp [Level.rank] at h <;> rfl

/-- What an operand of a rank is read as, a chain of looser operators is read as. -/
theorem ReadsAt.opensLevel_of_lt (hne : ls ≠ []) (hrank : rank ≤ unaryRank)
    (h : ReadsAt rank e ls) (hlevel : level.rank < rank) : OpensLevel level e ls := by
  induction rank with
  | zero => omega
  | succ n ih =>
    obtain ⟨next, rfl⟩ := exists_level (Nat.lt_of_succ_le hrank)
    have hnext : OpensLevel next e ls := h.opensLevel hne
    rcases Nat.lt_or_eq_of_le (Nat.le_of_lt_succ hlevel) with hlt | heq
    · exact ih (Nat.le_of_succ_le hrank) hnext.readsAt hlt
    · obtain rfl := Level.rank_injective heq
      exact hnext

theorem Spells.mono {rank' : Nat} (h : Spells rank e ls) (hrank : rank' ≤ rank) :
    Spells rank' e ls where
  leads := h.leads.mono hrank
  opensLevel level hlevel := h.opensLevel level (hlevel.trans hrank)
  readsUnary hunary := h.readsUnary (hunary.trans hrank)
  opensPostfix hbehind := h.opensPostfix (hbehind.trans hrank)

theorem Spells.of_opensLevel (hleads : Leads level.rank ls) (h : OpensLevel level e ls) :
    Spells level.rank e ls where
  leads := hleads
  opensLevel l hl := by
    rcases Nat.lt_or_eq_of_le hl with hlt | heq
    · exact h.readsAt.opensLevel_of_lt hleads.ne_nil level.rank_lt.le hlt
    · obtain rfl := Level.rank_injective heq
      exact h
  readsUnary hunary := absurd level.rank_lt (not_lt.2 hunary)
  opensPostfix hbehind := absurd (level.rank_lt.trans (by decide)) (not_lt.2 hbehind)

theorem Spells.of_readsUnary (hleads : Leads unaryRank ls) (h : ReadsAt unaryRank e ls) :
    Spells unaryRank e ls where
  leads := hleads
  opensLevel level _ := h.opensLevel_of_lt hleads.ne_nil le_rfl level.rank_lt
  readsUnary _ := h
  opensPostfix hbehind := absurd hbehind (by decide)

/-- What binds from behind is an operand without an operator in front of it. -/
theorem Spells.of_opensPostfix (hleads : Leads postfixRank ls) (h : OpensPostfix e ls) :
    Spells postfixRank e ls := by
  have hunary : ReadsAt unaryRank e ls := by
    intro fuel stop rest hfuel hstops
    have hlength := hleads.length_pos
    simp only [enough, unaryRank] at hfuel
    obtain ⟨fuel, rfl⟩ := Nat.exists_eq_add_of_le' (show 1 ≤ fuel by omega)
    have hread := h.readsAt hleads.ne_nil fuel stop rest
      (by simp only [enough, postfixRank]; omega) (hstops.mono (by decide))
    obtain ⟨first, tail, rfl, -, -, hfirst⟩ := hleads
    show parseUnary (fuel + 1) stop (first :: (tail ++ rest)) = _
    simp only [parseUnary, hfirst le_rfl]
    exact hread
  exact ⟨hleads, fun level _ => hunary.opensLevel_of_lt hleads.ne_nil le_rfl level.rank_lt,
    fun _ => hunary, fun _ => h⟩

/-- What lexemes spell is what the parser of the rank reads. -/
theorem Spells.readsAt (h : Spells rank e ls) (hrank : rank ≤ postfixRank) : ReadsAt rank e ls := by
  rcases Nat.lt_or_ge rank unaryRank with hlt | hge
  · obtain ⟨level, rfl⟩ := exists_level hlt
    exact (h.opensLevel level le_rfl).readsAt
  · rcases Nat.lt_or_eq_of_le hrank with hlt | rfl
    · obtain rfl : rank = unaryRank := by
        simp only [unaryRank, postfixRank] at *
        omega
      exact h.readsUnary le_rfl
    · exact (h.opensPostfix le_rfl).readsAt h.leads.ne_nil

end Spells

end Hashmark.Expression
