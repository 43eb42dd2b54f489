import Hashmark.Proofs.Grammar.Operands

/-!
# The parsers follow the grammar

The parsers read every derivation of the grammar (`Derives.isRead`), so a text stands for an
expression exactly if the tokens of the text derive it (`parseExpr_iff`): one lemma per form of the
grammar, and an induction on the derivation.
-/

namespace Hashmark.Expression

/-! ### Primary expressions -/

section Primary

variable {e : Expr} {ls : Lexemes}

/-- The parser of primary expressions reads the lexemes as the expression. -/
def ReadsPrimary (e : Expr) (ls : Lexemes) : Prop :=
  ∀ fuel stop rest, enough postfixRank ls.length ≤ fuel + 1 → NoArgs rest →
    parsePrimary fuel stop (ls ++ rest) = .ok (e, rest)

theorem ReadsPrimary.spells (hleads : Leads postfixRank ls) (h : ReadsPrimary e ls) :
    Spells postfixRank e ls := by
  refine .of_opensPostfix hleads fun fuel stop rest hfuel hrest => ?_
  have hlength := hleads.length_pos
  have hpos : 1 ≤ fuel := by
    simp only [enough] at hfuel
    omega
  obtain ⟨fuel, rfl⟩ := Nat.exists_eq_add_of_le' hpos
  refine ⟨fuel, by omega, ?_⟩
  simp only [parsePostfix, h fuel stop rest hfuel hrest]
  rfl

/-- A token that is an expression by itself. -/
theorem spells_atom {t : Token} (h : atom? t = some e) (offset : Nat) :
    Spells postfixRank e [⟨t, offset⟩] := by
  have hread : ReadsPrimary e [⟨t, offset⟩] := by
    intro fuel stop rest hfuel _
    simp only [enough, List.length_singleton] at hfuel
    obtain ⟨fuel, rfl⟩ := Nat.exists_eq_add_of_le' (show 1 ≤ fuel by omega)
    simp only [List.singleton_append, parsePrimary, h]
  refine hread.spells ⟨_, [], rfl, ?_, ?_, fun _ => ?_⟩
  all_goals cases t <;> simp_all [atom?, unaryOperator?]

/-- A word by itself: a constant or a variable. -/
theorem spells_word {name : String} (hnot : name ≠ "not")
    (h : ∀ fuel stop rest, NoArgs rest → ∀ offset,
      parsePrimary (fuel + 1) stop (⟨.word name, offset⟩ :: rest) = .ok (e, rest)) (offset : Nat) :
    Spells postfixRank e [⟨.word name, offset⟩] := by
  have hread : ReadsPrimary e [⟨.word name, offset⟩] := by
    intro fuel stop rest hfuel hrest
    simp only [enough, List.length_singleton] at hfuel
    obtain ⟨fuel, rfl⟩ := Nat.exists_eq_add_of_le' (show 1 ≤ fuel by omega)
    exact h fuel stop rest hrest offset
  refine hread.spells ⟨_, [], rfl, by simp, by simp, fun _ => ?_⟩
  simp [unaryOperator?, hnot]

theorem spells_constant {name : String} {value : Literal} (h : constant? name = some value)
    (offset : Nat) : Spells postfixRank (.lit value) [⟨.word name, offset⟩] := by
  refine spells_word ?_ (fun fuel stop rest _ offset => ?_) offset
  · rintro rfl
    cases h
  · simp only [parsePrimary, atom?, h]

theorem spells_name {name : String} (hconstant : constant? name = none) (hnot : name ≠ "not")
    (offset : Nat) : Spells postfixRank (.var name) [⟨.word name, offset⟩] := by
  refine spells_word hnot (fun fuel stop rest hrest offset => ?_) offset
  cases rest with
  | nil => simp only [parsePrimary, atom?, hconstant]
  | cons next tail => simp only [parsePrimary, atom?, hconstant, if_neg (hrest next rfl)]

/-- An expression in parentheses. -/
theorem Spells.parens (h : Spells 0 e ls) (opening closing : Nat) :
    Spells postfixRank e
      (⟨.symbol .openParen, opening⟩ :: (ls ++ [⟨.symbol .closeParen, closing⟩])) := by
  have hread : ReadsPrimary e
      (⟨.symbol .openParen, opening⟩ :: (ls ++ [⟨.symbol .closeParen, closing⟩])) := by
    intro fuel stop rest hfuel _
    simp only [enough, List.length_cons, List.length_append, List.length_nil] at hfuel
    obtain ⟨fuel, rfl⟩ := Nat.exists_eq_add_of_le' (show 1 ≤ fuel by omega)
    have hinner : parseLevel fuel stop .or (ls ++ ⟨.symbol .closeParen, closing⟩ :: rest) =
        .ok (e, ⟨.symbol .closeParen, closing⟩ :: rest) :=
      h.readsAt (Nat.zero_le _) fuel stop _ (by simp only [enough]; omega)
        (stops_symbol _ rfl (by decide) 0 closing rest)
    rw [List.cons_append, List.append_assoc, List.singleton_append]
    simp only [parsePrimary, atom?, hinner]
    rfl
  exact hread.spells ⟨_, _, rfl, by simp, by simp, fun _ => rfl⟩

end Primary

/-! ### Lists of expressions -/

section Lists

variable {e : Expr} {es : List Expr} {ls ls' : Lexemes}

/-- The parser of items reads the lexemes as the expressions. -/
def ReadsItems (es : List Expr) (ls : Lexemes) : Prop :=
  ∀ fuel stop rest, enough 0 ls.length < fuel → Stops 0 rest →
    (∀ lexeme ∈ rest.head?, lexeme.token ≠ .symbol .comma) →
    parseItems fuel stop (ls ++ rest) = .ok (es, rest)

/-- The parser of lists reads the lexemes, up to the bracket that closes the list. -/
def ReadsList (es : List Expr) (ls : Lexemes) : Prop :=
  ∀ fuel stop close offset rest, enough 0 ls.length + 1 < fuel →
    close = .closeParen ∨ close = .closeBracket →
    parseList fuel stop close (ls ++ ⟨.symbol close, offset⟩ :: rest) = .ok (es, rest)

theorem readsItems_singleton (h : ReadsAt 0 e ls) : ReadsItems [e] ls := by
  intro fuel stop rest hfuel hstops hcomma
  obtain ⟨fuel, rfl⟩ := Nat.exists_eq_add_of_le' (show 1 ≤ fuel by omega)
  have hitem : parseLevel fuel stop .or (ls ++ rest) = .ok (e, rest) :=
    h fuel stop rest (Nat.le_of_lt_succ hfuel) hstops
  simp only [parseItems, hitem]
  cases rest with
  | nil => rfl
  | cons lexeme rest =>
    simp only [bind, Except.bind, if_neg (hcomma lexeme rfl)]
    rfl

theorem readsItems_cons (h : ReadsAt 0 e ls) (hes : ReadsItems es ls') (offset : Nat) :
    ReadsItems (e :: es) (ls ++ ⟨.symbol .comma, offset⟩ :: ls') := by
  intro fuel stop rest hfuel hstops hcomma
  simp only [enough, List.length_append, List.length_cons] at hfuel
  obtain ⟨fuel, rfl⟩ := Nat.exists_eq_add_of_le' (show 1 ≤ fuel by omega)
  have hitem : parseLevel fuel stop .or (ls ++ ⟨.symbol .comma, offset⟩ :: (ls' ++ rest)) =
      .ok (e, ⟨.symbol .comma, offset⟩ :: (ls' ++ rest)) :=
    h fuel stop _ (by simp only [enough]; omega) (stops_symbol _ rfl (by decide) 0 offset _)
  have hitems := hes fuel stop rest (by simp only [enough]; omega) hstops hcomma
  rw [List.append_assoc, List.cons_append]
  simp only [parseItems, hitem]
  simp only [bind, Except.bind, reduceIte, hitems]
  rfl

theorem readsList_nil : ReadsList [] [] := by
  intro fuel stop close offset rest hfuel _
  obtain ⟨fuel, rfl⟩ := Nat.exists_eq_add_of_le' (show 1 ≤ fuel by omega)
  simp [parseList]

theorem ReadsItems.readsList (hleads : Leads 0 ls) (h : ReadsItems es ls) : ReadsList es ls := by
  intro fuel stop close offset rest hfuel hclose
  obtain ⟨fuel, rfl⟩ := Nat.exists_eq_add_of_le' (show 1 ≤ fuel by omega)
  have hitems := h fuel stop (⟨.symbol close, offset⟩ :: rest) (by omega)
    (by rcases hclose with rfl | rfl <;> exact stops_symbol _ rfl (by decide) 0 offset rest)
    (by rintro _ ⟨⟩; rcases hclose with rfl | rfl <;> simp)
  obtain ⟨first, tail, rfl, hparen, hbracket, -⟩ := hleads
  have hfirst : first.token ≠ .symbol close := by
    rcases hclose with rfl | rfl
    · exact hparen
    · exact hbracket
  rw [List.cons_append] at hitems ⊢
  simp only [parseList, if_neg hfirst, hitems]
  show (expectSymbol stop close (⟨.symbol close, offset⟩ :: rest) >>= _) = _
  rw [expectSymbol, if_pos rfl]
  rfl

end Lists

section Calls

variable {ls : Lexemes} {name : String} {es : List Expr}

theorem ReadsList.call (h : ReadsList es ls) (hconstant : constant? name = none)
    (hnot : name ≠ "not") (offset opening closing : Nat) :
    Spells postfixRank (.call name es) (⟨.word name, offset⟩ :: ⟨.symbol .openParen, opening⟩ ::
      (ls ++ [⟨.symbol .closeParen, closing⟩])) := by
  have hread : ReadsPrimary (.call name es) (⟨.word name, offset⟩ ::
      ⟨.symbol .openParen, opening⟩ :: (ls ++ [⟨.symbol .closeParen, closing⟩])) := by
    intro fuel stop rest hfuel _
    simp only [enough, List.length_append, List.length_cons, List.length_nil] at hfuel
    obtain ⟨fuel, rfl⟩ := Nat.exists_eq_add_of_le' (show 1 ≤ fuel by omega)
    have hlist : parseList fuel stop .closeParen (ls ++ ⟨.symbol .closeParen, closing⟩ :: rest) =
        .ok (es, rest) :=
      h fuel stop .closeParen closing rest (by simp only [enough]; omega) (.inl rfl)
    rw [List.cons_append, List.cons_append, List.append_assoc, List.singleton_append]
    simp only [parsePrimary, atom?, hconstant, reduceIte, hlist]
    rfl
  exact hread.spells ⟨_, _, rfl, by simp, by simp, fun _ => by simp [unaryOperator?, hnot]⟩

theorem ReadsList.brackets (h : ReadsList es ls) (opening closing : Nat) :
    Spells postfixRank (.list es) (⟨.symbol .openBracket, opening⟩ ::
      (ls ++ [⟨.symbol .closeBracket, closing⟩])) := by
  have hread : ReadsPrimary (.list es) (⟨.symbol .openBracket, opening⟩ ::
      (ls ++ [⟨.symbol .closeBracket, closing⟩])) := by
    intro fuel stop rest hfuel _
    simp only [enough, List.length_append, List.length_cons, List.length_nil] at hfuel
    obtain ⟨fuel, rfl⟩ := Nat.exists_eq_add_of_le' (show 1 ≤ fuel by omega)
    have hlist : parseList fuel stop .closeBracket
        (ls ++ ⟨.symbol .closeBracket, closing⟩ :: rest) = .ok (es, rest) :=
      h fuel stop .closeBracket closing rest (by simp only [enough]; omega) (.inr rfl)
    rw [List.cons_append, List.append_assoc, List.singleton_append]
    simp only [parsePrimary, atom?, hlist]
    rfl
  exact hread.spells ⟨_, _, rfl, by simp, by simp, fun _ => rfl⟩

end Calls

/-! ### What binds from behind -/

section Accesses

variable {base e : Expr} {ls ls' : Lexemes}

/-- One round of the loop goes over the lexemes `more`, and makes `e` of `base`. -/
def Extends (base e : Expr) (more : Lexemes) : Prop :=
  NoArgs more ∧ more ≠ [] ∧
    ∀ fuel stop rest, enough postfixRank more.length ≤ fuel → NoArgs rest →
      ∃ left, fuel ≤ left + more.length ∧
        parseAccesses fuel stop base (more ++ rest) = parseAccesses left stop e rest

theorem Spells.extend {more : Lexemes} (h : Spells postfixRank base ls)
    (hmore : Extends base e more) : Spells postfixRank e (ls ++ more) := by
  refine .of_opensPostfix (h.leads.append _) fun fuel stop rest hfuel hrest => ?_
  obtain ⟨hargs, hne, hround⟩ := hmore
  simp only [enough, postfixRank, List.length_append] at hfuel
  have hnext : NoArgs (more ++ rest) := by
    cases more with
    | nil => exact absurd rfl hne
    | cons lexeme more => exact hargs
  obtain ⟨left, hleft, hparse⟩ := h.opensPostfix le_rfl fuel stop (more ++ rest)
    (by simp only [enough, postfixRank]; omega) hnext
  obtain ⟨left', hleft', hparse'⟩ := hround left stop rest
    (by simp only [enough, postfixRank]; omega) hrest
  refine ⟨left', by simp only [List.length_append]; omega, ?_⟩
  rw [List.append_assoc, hparse, hparse']

theorem readField_of_fieldName? {t : Token} {name : String} (h : fieldName? t = some name)
    (stop offset : Nat) (rest : Lexemes) : readField stop (⟨t, offset⟩ :: rest) = .ok (name, rest) := by
  cases t <;> cases h <;> rfl

theorem extends_field {t : Token} {name : String} {access : Symbol}
    (haccess : access = .dot ∨ access = .arrow) (h : fieldName? t = some name)
    (dot offset : Nat) :
    Extends base (.field base name) [⟨.symbol access, dot⟩, ⟨t, offset⟩] := by
  refine ⟨noArgs_cons (by rcases haccess with rfl | rfl <;> simp) _ _, List.cons_ne_nil _ _, ?_⟩
  intro fuel stop rest hfuel _
  simp only [enough, List.length_cons, List.length_nil] at hfuel
  obtain ⟨fuel, rfl⟩ := Nat.exists_eq_add_of_le' (show 1 ≤ fuel by omega)
  refine ⟨fuel, by simp only [List.length_cons]; omega, ?_⟩
  rw [List.cons_append, List.singleton_append]
  rcases haccess with rfl | rfl <;>
  · simp only [parseAccesses, readField_of_fieldName? h]
    rfl

theorem extends_index {key : Expr} (hkey : ReadsAt 0 key ls) (opening closing : Nat) :
    Extends base (.index base key)
      (⟨.symbol .openBracket, opening⟩ :: (ls ++ [⟨.symbol .closeBracket, closing⟩])) := by
  refine ⟨noArgs_cons (by simp) _ _, List.cons_ne_nil _ _, ?_⟩
  intro fuel stop rest hfuel _
  simp only [enough, List.length_append, List.length_cons, List.length_nil] at hfuel
  obtain ⟨fuel, rfl⟩ := Nat.exists_eq_add_of_le' (show 1 ≤ fuel by omega)
  refine ⟨fuel, by simp only [List.length_cons]; omega, ?_⟩
  have hread : parseLevel fuel stop .or (ls ++ ⟨.symbol .closeBracket, closing⟩ :: rest) =
      .ok (key, ⟨.symbol .closeBracket, closing⟩ :: rest) :=
    hkey fuel stop _ (by simp only [enough]; omega) (stops_symbol _ rfl (by decide) 0 closing rest)
  rw [List.cons_append, List.append_assoc, List.singleton_append]
  simp only [parseAccesses, hread]
  rfl

/-- A filter without arguments. -/
theorem extends_pipe (name : String) (bar offset : Nat) :
    Extends base (.filter base name []) [⟨.symbol .bar, bar⟩, ⟨.word name, offset⟩] := by
  refine ⟨noArgs_cons (by simp) _ _, List.cons_ne_nil _ _, ?_⟩
  intro fuel stop rest hfuel hrest
  simp only [enough, List.length_cons, List.length_nil] at hfuel
  obtain ⟨fuel, rfl⟩ := Nat.exists_eq_add_of_le' (show 2 ≤ fuel by omega)
  refine ⟨fuel + 1, by simp only [List.length_cons]; omega, ?_⟩
  have hnone : parseOptionalArgs (fuel + 1) stop rest = .ok ([], rest) := by
    cases rest with
    | nil => rfl
    | cons lexeme rest => simp only [parseOptionalArgs, if_neg (hrest lexeme rfl)]
  rw [List.cons_append, List.singleton_append]
  simp only [parseAccesses, readFilter, bind, Except.bind, hnone]

theorem extends_filter {args : List Expr} (name : String) (hargs : ReadsList args ls)
    (bar offset opening closing : Nat) :
    Extends base (.filter base name args) (⟨.symbol .bar, bar⟩ :: ⟨.word name, offset⟩ ::
      ⟨.symbol .openParen, opening⟩ :: (ls ++ [⟨.symbol .closeParen, closing⟩])) := by
  refine ⟨noArgs_cons (by simp) _ _, List.cons_ne_nil _ _, ?_⟩
  intro fuel stop rest hfuel _
  simp only [enough, List.length_append, List.length_cons, List.length_nil] at hfuel
  obtain ⟨fuel, rfl⟩ := Nat.exists_eq_add_of_le' (show 2 ≤ fuel by omega)
  refine ⟨fuel + 1, by simp only [List.length_cons]; omega, ?_⟩
  have hread : parseList fuel stop .closeParen (ls ++ ⟨.symbol .closeParen, closing⟩ :: rest) =
      .ok (args, rest) :=
    hargs fuel stop .closeParen closing rest (by simp only [enough]; omega) (.inl rfl)
  rw [List.cons_append, List.cons_append, List.cons_append, List.append_assoc,
    List.singleton_append]
  simp only [parseAccesses, readFilter, parseOptionalArgs, bind, Except.bind, reduceIte, hread]

end Accesses

/-! ### Operators -/

section Operators

variable {left right : Expr} {ls ls' : Lexemes}

theorem Spells.unary {t : Token} {op : UnaryOp} (h : Spells unaryRank right ls)
    (hop : unaryOperator? t = some op) (offset : Nat) :
    Spells unaryRank (.unary op right) (⟨t, offset⟩ :: ls) := by
  refine .of_readsUnary ⟨_, _, rfl, ?_, ?_, fun hrank => absurd hrank (by decide)⟩ ?_
  · rintro rfl
    cases hop
  · rintro rfl
    cases hop
  · intro fuel stop rest hfuel hstops
    simp only [enough, List.length_cons] at hfuel
    obtain ⟨fuel, rfl⟩ := Nat.exists_eq_add_of_le' (show 1 ≤ fuel by omega)
    have hread : parseUnary fuel stop (ls ++ rest) = .ok (right, rest) :=
      h.readsUnary le_rfl fuel stop rest (by simp only [enough]; omega) hstops
    show parseUnary (fuel + 1) stop (⟨t, offset⟩ :: (ls ++ rest)) = _
    simp only [parseUnary, hop, hread]
    rfl

theorem Spells.binary {level : Level} {t : Token} {op : BinaryOp}
    (hop : level.operator? t = some op) (hleft : Spells level.rank left ls)
    (hright : Spells (level.rank + 1) right ls') (offset : Nat) :
    Spells level.rank (.binary op left right) (ls ++ ⟨t, offset⟩ :: ls') := by
  have hrank : level.rank < 5 := level.rank_lt
  refine .of_opensLevel (hleft.leads.append _) fun fuel stop rest hfuel hstops => ?_
  simp only [enough, List.length_append, List.length_cons] at hfuel
  rw [List.append_assoc, List.cons_append]
  obtain ⟨n, hn, hparse⟩ := hleft.opensLevel level le_rfl fuel stop (⟨t, offset⟩ :: (ls' ++ rest))
    (by simp only [enough]; omega) (stops_operator hop offset _)
  obtain ⟨n, rfl⟩ := Nat.exists_eq_add_of_le' (show 2 ≤ n by omega)
  refine ⟨n + 1, by simp only [List.length_append, List.length_cons]; omega, ?_⟩
  have hread := hright.readsAt (hrank.trans (by decide)) n stop rest
    (by simp only [enough]; omega) hstops
  rw [hparse]
  simp only [parseOperators, hop, parseOperand_eq, hread]
  rfl

end Operators

/-! ### Every derivation -/

/-- Whether the parsers read lexemes as a phrase. -/
def Phrase.IsRead : Phrase → Lexemes → Prop
  | .operand rank e, ls => Spells rank e ls
  | .items es, ls => Leads 0 ls ∧ ReadsItems es ls
  | .list es, ls => ReadsList es ls

/-- **The parsers read every derivation.** -/
theorem Derives.isRead {p : Phrase} {ts : List Token} (h : Derives p ts) :
    ∀ ls, tokensOf ls = ts → p.IsRead ls := by
  induction h with
  | atom hatom =>
    intro ls hls
    obtain ⟨offset, rfl⟩ := tokensOf_eq_singleton.1 hls
    exact spells_atom hatom offset
  | constant hconstant =>
    intro ls hls
    obtain ⟨offset, rfl⟩ := tokensOf_eq_singleton.1 hls
    exact spells_constant hconstant offset
  | name hconstant hnot =>
    intro ls hls
    obtain ⟨offset, rfl⟩ := tokensOf_eq_singleton.1 hls
    exact spells_name hconstant hnot offset
  | parens _ ih =>
    intro ls hls
    obtain ⟨opening, inner, closing, rfl, hinner⟩ := exists_of_tokensOf_eq_brackets hls
    exact Spells.parens (ih inner hinner) opening closing
  | brackets _ ih =>
    intro ls hls
    obtain ⟨opening, inner, closing, rfl, hinner⟩ := exists_of_tokensOf_eq_brackets hls
    exact ReadsList.brackets (ih inner hinner) opening closing
  | call hconstant hnot _ ih =>
    intro ls hls
    obtain ⟨offset, rest, rfl, hparens⟩ := tokensOf_eq_cons.1 hls
    obtain ⟨opening, inner, closing, rfl, hinner⟩ := exists_of_tokensOf_eq_brackets hparens
    exact ReadsList.call (ih inner hinner) hconstant hnot offset opening closing
  | field _ haccess hname ih =>
    intro ls hls
    obtain ⟨front, back, rfl, hfront, hback⟩ := tokensOf_eq_append.1 hls
    obtain ⟨dot, last, rfl, hlast⟩ := tokensOf_eq_cons.1 hback
    obtain ⟨offset, rfl⟩ := tokensOf_eq_singleton.1 hlast
    exact Spells.extend (ih front hfront) (extends_field haccess hname dot offset)
  | index _ _ ihbase ihkey =>
    intro ls hls
    obtain ⟨front, back, rfl, hfront, hback⟩ := tokensOf_eq_append.1 hls
    obtain ⟨opening, inner, closing, rfl, hinner⟩ := exists_of_tokensOf_eq_brackets hback
    have hkey := Spells.readsAt (ihkey inner hinner) (Nat.zero_le _)
    exact Spells.extend (ihbase front hfront) (extends_index hkey opening closing)
  | pipe _ ih =>
    intro ls hls
    obtain ⟨front, back, rfl, hfront, hback⟩ := tokensOf_eq_append.1 hls
    obtain ⟨bar, last, rfl, hlast⟩ := tokensOf_eq_cons.1 hback
    obtain ⟨offset, rfl⟩ := tokensOf_eq_singleton.1 hlast
    exact Spells.extend (ih front hfront) (extends_pipe _ bar offset)
  | filter _ _ ihinput ihargs =>
    intro ls hls
    obtain ⟨front, back, rfl, hfront, hback⟩ := tokensOf_eq_append.1 hls
    obtain ⟨bar, rest, rfl, hname⟩ := tokensOf_eq_cons.1 hback
    obtain ⟨offset, rest, rfl, hparens⟩ := tokensOf_eq_cons.1 hname
    obtain ⟨opening, inner, closing, rfl, hinner⟩ := exists_of_tokensOf_eq_brackets hparens
    exact Spells.extend (ihinput front hfront)
      (extends_filter _ (ihargs inner hinner) bar offset opening closing)
  | unary hop _ ih =>
    intro ls hls
    obtain ⟨offset, rest, rfl, hrest⟩ := tokensOf_eq_cons.1 hls
    exact Spells.unary (ih rest hrest) hop offset
  | binary hop _ _ ihleft ihright =>
    intro ls hls
    obtain ⟨front, back, rfl, hfront, hback⟩ := tokensOf_eq_append.1 hls
    obtain ⟨offset, rest, rfl, hrest⟩ := tokensOf_eq_cons.1 hback
    exact Spells.binary hop (ihleft front hfront) (ihright rest hrest) offset
  | tighter _ _ ih => exact fun ls hls => Spells.mono (ih ls hls) (Nat.le_succ _)
  | item _ ih =>
    intro ls hls
    have hitem : Spells 0 _ ls := ih ls hls
    exact ⟨hitem.leads, readsItems_singleton (hitem.readsAt (Nat.zero_le _))⟩
  | cons _ _ ih ihes =>
    intro ls hls
    obtain ⟨front, back, rfl, hfront, hback⟩ := tokensOf_eq_append.1 hls
    obtain ⟨offset, rest, rfl, hrest⟩ := tokensOf_eq_cons.1 hback
    have hitem : Spells 0 _ front := ih front hfront
    exact ⟨hitem.leads.append _,
      readsItems_cons (hitem.readsAt (Nat.zero_le _)) (ihes rest hrest).2 offset⟩
  | empty =>
    intro ls hls
    obtain rfl := List.map_eq_nil_iff.1 hls
    exact readsList_nil
  | full _ ih => exact fun ls hls => ReadsItems.readsList (ih ls hls).1 (ih ls hls).2

theorem Derives.items_ne_nil {es : List Expr} {ts : List Token} (h : Derives (.items es) ts) :
    ts ≠ [] := by
  rintro rfl
  exact (h.isRead [] rfl).1.ne_nil rfl

end Hashmark.Expression

namespace Hashmark

open Expression
open Lexer (bind_eq_ok)

/-! ### Whole texts -/

/-- **A text stands for the expression that its tokens derive.** -/
theorem parseExpr_iff {text : String} {e : Expr} : parseExpr text = .ok e ↔
    ∃ ts, Lexes text.toList ts ∧ Derives (.operand 0 e) ts := by
  constructor
  · intro h
    obtain ⟨ls, hls, h⟩ := bind_eq_ok.1 h
    dsimp only at h
    split at h
    · cases h
    · obtain ⟨⟨e', rest⟩, hread, hend⟩ := bind_eq_ok.1 h
      obtain ⟨front, hfront, hderives⟩ := (sound _).level _ .or ls e' rest hread
      cases rest with
      | nil =>
        cases hend
        rw [List.append_nil] at hfront
        exact ⟨_, lexes_of_tokenizeFrom hls, hfront ▸ hderives⟩
      | cons lexeme rest => cases hend
  · rintro ⟨ts, hlexes, hderives⟩
    obtain ⟨ls, hls, hts⟩ := lexes_iff.1 hlexes
    have hspells : Spells 0 e ls := hderives.isRead ls hts
    have hread : parseLevel (fuelFor ls) text.utf8ByteSize .or ls = .ok (e, []) := by
      have hrank := hspells.readsAt (Nat.zero_le _) (fuelFor ls) text.utf8ByteSize []
        (by simp only [enough, fuelFor]; omega) (stops_nil 0)
      rwa [List.append_nil] at hrank
    have hne : ls.isEmpty = false := List.isEmpty_eq_false_iff.2 hspells.leads.ne_nil
    rw [parseExpr, hls]
    simp only [bind, Except.bind, hne, hread]
    rfl

/-- **A text stands for the arguments that its tokens derive**, and a blank one for none. -/
theorem parseArgs_iff {text : String} {es : List Expr} : parseArgs text = .ok es ↔
    ((Text.trimChars text.toList).isEmpty = true ∧ es = []) ∨
      ∃ ts, Lexes text.toList ts ∧ Derives (.items es) ts := by
  constructor
  · intro h
    unfold parseArgs at h
    split at h
    · next hblank =>
      cases h
      exact .inl ⟨hblank, rfl⟩
    · obtain ⟨ls, hls, h⟩ := bind_eq_ok.1 h
      obtain ⟨⟨es', rest⟩, hread, hend⟩ := bind_eq_ok.1 h
      obtain ⟨front, hfront, hderives⟩ := (sound _).items _ ls es' rest hread
      cases rest with
      | nil =>
        cases hend
        rw [List.append_nil] at hfront
        exact .inr ⟨_, lexes_of_tokenizeFrom hls, hfront ▸ hderives⟩
      | cons lexeme rest => cases hend
  · rintro (⟨hblank, rfl⟩ | ⟨ts, hlexes, hderives⟩)
    · rw [parseArgs, if_pos hblank]
      rfl
    · have htext := hlexes.isEmpty_trimChars hderives.items_ne_nil
      obtain ⟨ls, hls, hts⟩ := lexes_iff.1 hlexes
      obtain ⟨-, hitems⟩ := hderives.isRead ls hts
      have hread : parseItems (fuelFor ls) text.utf8ByteSize ls = .ok (es, []) := by
        have hrest := hitems (fuelFor ls) text.utf8ByteSize []
          (by simp only [enough, fuelFor]; omega) (stops_nil 0) nofun
        rwa [List.append_nil] at hrest
      rw [parseArgs, htext, if_neg (by decide), hls]
      simp only [bind, Except.bind, hread]
      rfl

end Hashmark
