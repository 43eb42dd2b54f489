import Hashmark.Proofs.Grammar.Completeness
import Hashmark.Template

/-!
# Brackets of an expression

In a text that stands for an expression the brackets match, outside of its strings
(`bracketed_of_parseExpr`). So a scanner that counts brackets passes over the text and is where it
was: the marker around the expression ends behind it (`readClosed_bracketed`), and the `as` of a loop
is not looked for in it (`splitHeader_bracketed`).
-/

namespace Hashmark

open Expression

/-! ### Texts with matching brackets -/

/-- The characters that are neither quotes nor brackets. -/
def isPlain (c : Char) : Bool :=
  c != '\'' && c != '"' && c != '(' && c != ')' && c != '[' && c != ']'

/-- The texts whose brackets match outside of strings. -/
inductive Bracketed : List Char → Prop
  | nil : Bracketed []
  | plain {c : Char} {cs : List Char} (hc : isPlain c = true) (h : Bracketed cs) :
    Bracketed (c :: cs)
  | quoted {quote : Char} {body value cs : List Char} (hquote : IsQuote quote)
      (hbody : Quoted quote body value) (h : Bracketed cs) : Bracketed (quote :: (body ++ cs))
  | round {inner cs : List Char} (hinner : Bracketed inner) (h : Bracketed cs) :
    Bracketed ('(' :: (inner ++ ')' :: cs))
  | square {inner cs : List Char} (hinner : Bracketed inner) (h : Bracketed cs) :
    Bracketed ('[' :: (inner ++ ']' :: cs))

section Bracketed

variable {c quote : Char} {cs cs' : List Char}

theorem isPlain_iff : isPlain c = true ↔
    c ≠ '\'' ∧ c ≠ '"' ∧ c ≠ '(' ∧ c ≠ ')' ∧ c ≠ '[' ∧ c ≠ ']' := by
  simp [isPlain, and_assoc]

theorem Bracketed.append (h : Bracketed cs) (h' : Bracketed cs') : Bracketed (cs ++ cs') := by
  induction h with
  | nil => exact h'
  | plain hc _ ih => exact ih.plain hc
  | quoted hquote hbody _ ih =>
    rw [List.cons_append, List.append_assoc]
    exact ih.quoted hquote hbody
  | round hinner _ _ ih =>
    rw [List.cons_append, List.append_assoc, List.cons_append]
    exact hinner.round ih
  | square hinner _ _ ih =>
    rw [List.cons_append, List.append_assoc, List.cons_append]
    exact hinner.square ih

theorem bracketed_of_plain (h : ∀ c ∈ cs, isPlain c = true) : Bracketed cs := by
  induction cs with
  | nil => exact .nil
  | cons c cs ih =>
    obtain ⟨hc, hcs⟩ := List.forall_mem_cons.1 h
    exact (ih hcs).plain hc

theorem isPlain_of_isNameChar (h : isNameChar c = true) : isPlain c = true := by
  rw [isPlain_iff]
  refine ⟨?_, ?_, ?_, ?_, ?_, ?_⟩ <;>
  · rintro rfl
    exact absurd h (by decide)

theorem isPlain_of_isDigit (h : c.isDigit = true) : isPlain c = true :=
  isPlain_of_isNameChar (by simp [isNameChar, Char.isAlphanum, h])

theorem isPlain_of_isAsciiBlank (h : Text.isAsciiBlank c = true) : isPlain c = true := by
  rw [isPlain_iff]
  refine ⟨?_, ?_, ?_, ?_, ?_, ?_⟩ <;>
  · rintro rfl
    exact absurd h (by decide)

end Bracketed

/-! ### The text of a token -/

/-- The brackets of expressions. -/
def Expression.Symbol.isBracket : Symbol → Bool
  | .openParen | .closeParen | .openBracket | .closeBracket => true
  | _ => false

theorem exists_of_takeDigits (cs : List Char) :
    ∃ front, cs = front ++ (Number.takeDigits cs).2 ∧ ∀ c ∈ front, c.isDigit = true := by
  induction cs with
  | nil => exact ⟨[], rfl, nofun⟩
  | cons c cs ih =>
    obtain ⟨front, hcs, hfront⟩ := ih
    by_cases hc : c.isDigit = true
    · refine ⟨c :: front, ?_, List.forall_mem_cons.2 ⟨hc, hfront⟩⟩
      simpa [Number.takeDigits, Number.digit?, hc] using hcs
    · exact ⟨[], by simp [Number.takeDigits, Number.digit?, hc], nofun⟩

/-- A number is read up to its last digit. -/
theorem exists_of_readNumber {t : Token} {cs rest : List Char}
    (h : readNumber cs = .ok (t, rest)) :
    ∃ front, cs = front ++ rest ∧ ∀ c ∈ front, isPlain c = true := by
  have hrest : rest = (readFraction (Number.takeDigits cs).2).2 := by
    unfold readNumber at h
    dsimp only at h
    split_ifs at h <;> cases h <;> rfl
  obtain ⟨whole, hcs, hwhole⟩ := exists_of_takeDigits cs
  have hplain : ∀ c ∈ whole, isPlain c = true := fun c hc => isPlain_of_isDigit (hwhole c hc)
  unfold readFraction at hrest
  split at hrest
  · next tail htail =>
    obtain ⟨fraction, htail', hfraction⟩ := exists_of_takeDigits tail
    split at hrest
    · exact ⟨whole, by rw [hrest, ← htail]; exact hcs, hplain⟩
    · next hdigits =>
      rw [hdigits] at htail'
      refine ⟨whole ++ '.' :: fraction, ?_, List.forall_mem_append.2
        ⟨hplain, List.forall_mem_cons.2 ⟨rfl, fun c hc => isPlain_of_isDigit (hfraction c hc)⟩⟩⟩
      rw [hrest, List.append_assoc, List.cons_append, ← htail', ← htail]
      exact hcs
  · exact ⟨whole, by rw [hrest]; exact hcs, hplain⟩

/-- What the text of a token is like: that of a symbol is known, and in all others the brackets
match. -/
def Expression.Token.Spans : Token → List Char → Prop
  | .symbol s, cs => cs = s.text.toList
  | _, cs => Bracketed cs

/-- **A token is read off the front of a text.** -/
theorem exists_of_readToken {c : Char} {cs rest : List Char} {t : Token}
    (h : readToken c cs = .ok (t, rest)) : ∃ front, c :: cs = front ++ rest ∧ t.Spans front := by
  have hname (start : Char) (hstart : isPlain start = true) :
      start :: cs = (start :: cs.takeWhile isNameChar) ++ cs.dropWhile isNameChar ∧
        Bracketed (start :: cs.takeWhile isNameChar) := by
    refine ⟨by rw [List.cons_append, List.takeWhile_append_dropWhile], .plain hstart ?_⟩
    exact bracketed_of_plain fun c hc => isPlain_of_isNameChar (List.mem_takeWhile_imp hc)
  unfold readToken at h
  split_ifs at h with hdollar hstart hdigit hquote
  case pos =>
    split at h
    · cases h
    · cases h
      exact ⟨_, hname c (by rw [hdollar]; rfl)⟩
  case pos =>
    cases h
    exact ⟨_, hname c (isPlain_of_isNameChar (isNameChar_of_isNameStart hstart))⟩
  case pos =>
    obtain ⟨front, hfront, hplain⟩ := exists_of_readNumber h
    have hbracketed := bracketed_of_plain hplain
    unfold readNumber at h
    dsimp only at h
    split_ifs at h <;> cases h <;> exact ⟨front, hfront, hbracketed⟩
  case pos =>
    split at h
    · next hquoted =>
      cases h
      obtain ⟨body, rfl, hbody⟩ := exists_of_readQuoted hquoted
      refine ⟨c :: body, rfl, ?_⟩
      have hbracketed := Bracketed.nil.quoted hquote hbody
      rwa [List.append_nil] at hbracketed
    · cases h
  case neg =>
    split at h
    · next hsymbol =>
      cases h
      exact ⟨_, eq_append_of_readSymbol hsymbol, rfl⟩
    · cases h

/-! ### The text of an expression -/

/-- Whether the brackets in the text of some tokens match, wherever the tokens stand. -/
def Matches (ts : List Token) : Prop :=
  ∀ cs more, Lexes cs (ts ++ more) →
    ∃ front rest, cs = front ++ rest ∧ Bracketed front ∧ Lexes rest more

section Matches

variable {ts ts' : List Token}

/-- What is in front of a text of which the first token is known. -/
theorem Expression.Lexes.exists_front {cs : List Char} {t : Token} (h : Lexes cs (t :: ts)) :
    ∃ blanks front rest, cs = blanks ++ (front ++ rest) ∧ Bracketed blanks ∧ t.Spans front ∧
      Lexes rest ts := by
  generalize hts : t :: ts = all at h
  induction h with
  | nil => cases hts
  | @blank c _ _ hc _ ih =>
    obtain ⟨blanks, front, rest, rfl, hblanks, hfront, hrest⟩ := ih hts
    exact ⟨c :: blanks, front, rest, rfl, hblanks.plain (isPlain_of_isAsciiBlank hc), hfront,
      hrest⟩
  | token _ hread hrest _ =>
    cases hts
    obtain ⟨front, hfront, hspans⟩ := exists_of_readToken hread
    exact ⟨[], front, _, hfront, .nil, hspans, hrest⟩

theorem bracketed_of_lexes_nil {cs : List Char} (h : Lexes cs []) : Bracketed cs := by
  generalize hts : ([] : List Token) = all at h
  induction h with
  | nil => exact .nil
  | blank hc _ ih => exact (ih hts).plain (isPlain_of_isAsciiBlank hc)
  | token _ _ _ _ => cases hts

theorem matches_nil : Matches [] :=
  fun cs _ h => ⟨[], cs, rfl, .nil, h⟩

theorem Matches.append (h : Matches ts) (h' : Matches ts') : Matches (ts ++ ts') := by
  intro cs more hcs
  rw [List.append_assoc] at hcs
  obtain ⟨front, rest, rfl, hfront, hrest⟩ := h cs _ hcs
  obtain ⟨front', rest', rfl, hfront', hrest'⟩ := h' rest more hrest
  exact ⟨front ++ front', rest', by simp, hfront.append hfront', hrest'⟩

theorem Expression.Token.Spans.bracketed {t : Token} {cs : List Char} (h : t.Spans cs)
    (hsymbol : ∀ s : Symbol, t = .symbol s → s.isBracket = false) : Bracketed cs := by
  cases t with
  | symbol s =>
    have hs := hsymbol s rfl
    rw [show cs = s.text.toList from h]
    have hplain : s.text.toList.all isPlain = true := by
      cases s <;> first | rfl | cases hs
    exact bracketed_of_plain (List.all_eq_true.1 hplain)
  | _ => exact h

/-- A token that is no bracket. -/
theorem Matches.cons {t : Token} (h : Matches ts)
    (hsymbol : ∀ s : Symbol, t = .symbol s → s.isBracket = false) : Matches (t :: ts) := by
  intro cs more hcs
  obtain ⟨blanks, front, rest, rfl, hblanks, hfront, hrest⟩ := hcs.exists_front
  obtain ⟨front', rest', rfl, hfront', hrest'⟩ := h rest more hrest
  exact ⟨blanks ++ (front ++ front'), rest', by simp,
    hblanks.append ((hfront.bracketed hsymbol).append hfront'), hrest'⟩

theorem Matches.word (h : Matches ts) (name : String) : Matches (.word name :: ts) :=
  h.cons nofun

theorem Matches.symbol {s : Symbol} (h : Matches ts) (hs : s.isBracket = false) :
    Matches (.symbol s :: ts) := by
  refine h.cons ?_
  rintro _ ⟨⟩
  exact hs

/-- Tokens between two brackets, if texts between the brackets match. -/
theorem Matches.between {opening closing : Symbol}
    (hwrap : ∀ {inner : List Char}, Bracketed inner →
      Bracketed (opening.text.toList ++ (inner ++ closing.text.toList)))
    (h : Matches ts) : Matches (.symbol opening :: (ts ++ [.symbol closing])) := by
  intro cs more hcs
  rw [List.cons_append, List.append_assoc] at hcs
  obtain ⟨blanks, front, rest, rfl, hblanks, rfl, hrest⟩ := hcs.exists_front
  obtain ⟨inner, tail, rfl, hinner, htail⟩ := h rest _ hrest
  obtain ⟨blanks', front, last, rfl, hblanks', rfl, hlast⟩ := htail.exists_front
  exact ⟨blanks ++ (opening.text.toList ++ ((inner ++ blanks') ++ closing.text.toList)), last,
    by simp, hblanks.append (hwrap (hinner.append hblanks')), hlast⟩

theorem Matches.parens (h : Matches ts) :
    Matches (.symbol .openParen :: (ts ++ [.symbol .closeParen])) :=
  .between (fun hinner => hinner.round .nil) h

theorem Matches.brackets (h : Matches ts) :
    Matches (.symbol .openBracket :: (ts ++ [.symbol .closeBracket])) :=
  .between (fun hinner => hinner.square .nil) h

end Matches

/-- **The brackets of what can be derived match.** -/
theorem Expression.Derives.matches {p : Phrase} {ts : List Token} (h : Derives p ts) :
    Matches ts := by
  induction h with
  | @atom t _ hatom =>
    refine matches_nil.cons ?_
    rintro s rfl
    cases hatom
  | constant _ => exact matches_nil.word _
  | name _ _ => exact matches_nil.word _
  | parens _ ih => exact ih.parens
  | brackets _ ih => exact ih.brackets
  | call _ _ _ ih => exact ih.parens.word _
  | field _ haccess hname ih =>
    refine ih.append ((matches_nil.cons ?_).symbol (by rcases haccess with rfl | rfl <;> rfl))
    rintro s rfl
    cases hname
  | index _ _ ihbase ihkey => exact ihbase.append ihkey.brackets
  | pipe _ ih => exact ih.append ((matches_nil.word _).symbol rfl)
  | filter _ _ ihinput ihargs =>
    exact ihinput.append ((ihargs.parens.word _).symbol rfl)
  | unary hop _ ih =>
    refine ih.cons ?_
    rintro s rfl
    cases s <;> first | rfl | cases hop
  | @binary level _ _ _ _ _ _ hop _ _ ihleft ihright =>
    refine ihleft.append (ihright.cons ?_)
    rintro s rfl
    cases level <;> cases s <;> first | rfl | cases hop
  | tighter _ _ ih => exact ih
  | item _ ih => exact ih
  | cons _ _ ih ihes => exact ih.append (ihes.symbol rfl)
  | empty => exact matches_nil
  | full _ ih => exact ih

theorem Expression.Derives.bracketed {p : Phrase} {cs : List Char} {ts : List Token}
    (h : Derives p ts) (hcs : Lexes cs ts) : Bracketed cs := by
  rw [← List.append_nil ts] at hcs
  obtain ⟨front, rest, rfl, hfront, hrest⟩ := h.matches cs [] hcs
  exact hfront.append (bracketed_of_lexes_nil hrest)

/-- **The brackets of a text that stands for an expression match.** -/
theorem bracketed_of_parseExpr {text : String} {e : Expr} (h : parseExpr text = .ok e) :
    Bracketed text.toList := by
  obtain ⟨ts, hlexes, hderives⟩ := parseExpr_iff.1 h
  exact hderives.bracketed hlexes

/-! ### Scanners that count brackets -/

section Closing

open Lexer (readClosed)

variable {opener closer : Char}

/-- A character in quotes, other than a backslash. -/
theorem readClosed_inQuote (depth : Nat) (quote : Char) {c : Char} (hc : c ≠ '\\')
    (cs : List Char) : readClosed opener closer depth (some quote) (c :: cs) =
      (readClosed opener closer depth (if c = quote then none else some quote) cs).map
        fun (inner, rest) => (c :: inner, rest) := by
  cases cs <;> simp [readClosed, hc]

/-- A string is passed over. -/
theorem readClosed_quoted (depth : Nat) {quote : Char} (hquote : IsQuote quote)
    {body value : List Char} (hbody : Quoted quote body value) (rest : List Char) :
    readClosed opener closer depth (some quote) (body ++ rest) =
      (readClosed opener closer depth none rest).map fun (inner, rest) =>
        (body ++ inner, rest) := by
  induction hbody with
  | close =>
    rw [List.singleton_append, readClosed_inQuote _ _ hquote.ne_backslash, if_pos rfl]
    rfl
  | escape c _ ih =>
    rw [List.cons_append, List.cons_append, readClosed]
    simp [ih, Function.comp_def]
  | char hc hne _ ih =>
    rw [List.cons_append, readClosed_inQuote _ _ hc, if_neg hne, ih]
    simp [Function.comp_def]

/-- **Matching brackets are passed over** at any depth. -/
theorem readClosed_append {cs : List Char} (h : Bracketed cs)
    (hbrackets : (opener = '(' ∧ closer = ')') ∨ (opener = '[' ∧ closer = ']')) (depth : Nat)
    (rest : List Char) :
    readClosed opener closer depth none (cs ++ rest) =
      (readClosed opener closer depth none rest).map fun (inner, rest) => (cs ++ inner, rest) := by
  induction h generalizing depth rest with
  | nil => simp
  | plain hc _ ih =>
    obtain ⟨hsingle, hdouble, hparen, hparen', hbracket, hbracket'⟩ := isPlain_iff.1 hc
    rcases hbrackets with ⟨rfl, rfl⟩ | ⟨rfl, rfl⟩ <;>
      simp [readClosed, hsingle, hdouble, hparen, hparen', hbracket, hbracket', ih,
        Function.comp_def]
  | @quoted quote body value cs hquote hbody _ ih =>
    have hstart : readClosed opener closer depth none (quote :: (body ++ (cs ++ rest))) =
        (readClosed opener closer depth (some quote) (body ++ (cs ++ rest))).map
          fun (inner, rest) => (quote :: inner, rest) := by
      rcases hquote with rfl | rfl <;> simp [readClosed]
    rw [List.cons_append, List.append_assoc, hstart,
      readClosed_quoted _ hquote hbody, ih]
    simp [Function.comp_def]
  | round _ _ ihinner ih =>
    rw [List.cons_append, List.append_assoc, List.cons_append]
    rcases hbrackets with ⟨rfl, rfl⟩ | ⟨rfl, rfl⟩ <;>
      simp [readClosed, ihinner, ih, Function.comp_def]
  | square _ _ ihinner ih =>
    rw [List.cons_append, List.append_assoc, List.cons_append]
    rcases hbrackets with ⟨rfl, rfl⟩ | ⟨rfl, rfl⟩ <;>
      simp [readClosed, ihinner, ih, Function.comp_def]

/-- The text between two brackets ends at the second one. -/
theorem readClosed_bracketed {cs : List Char} (h : Bracketed cs)
    (hbrackets : (opener = '(' ∧ closer = ')') ∨ (opener = '[' ∧ closer = ']'))
    (rest : List Char) : readClosed opener closer 0 none (cs ++ closer :: rest) =
      some (cs, rest) := by
  rw [readClosed_append h hbrackets]
  rcases hbrackets with ⟨rfl, rfl⟩ | ⟨rfl, rfl⟩ <;> simp [readClosed]

end Closing

section Headers

open Builder (splitHeader)

variable {depth : Int} {afterBlank : Bool} {before : List Char} {split : List Char × List Char}

/-- What is found later counts, also where `as` stands. -/
theorem splitHeader_of_later {c : Char} {cs : List Char}
    (h : splitHeader
      ⟨if c = '(' ∨ c = '[' then depth + 1 else if c = ')' ∨ c = ']' then depth - 1 else depth,
        if c = '\'' ∨ c = '"' then some c else none, Text.isAsciiBlank c⟩ (c :: before) cs =
      some split) : splitHeader ⟨depth, none, afterBlank⟩ before (c :: cs) = some split := by
  cases cs with
  | nil =>
    rw [splitHeader] at h
    cases h
  | cons => simp [splitHeader, h]

theorem splitHeader_inQuote (quote : Char) {c : Char} (hc : c ≠ '\\') (cs : List Char) :
    splitHeader ⟨depth, some quote, afterBlank⟩ before (c :: cs) =
      splitHeader ⟨depth, if c = quote then none else some quote, Text.isAsciiBlank c⟩
        (c :: before) cs := by
  cases cs <;> simp [splitHeader, hc]

/-- A string is passed over. -/
theorem splitHeader_quoted {quote : Char} (hquote : IsQuote quote) {body value rest : List Char}
    (hbody : Quoted quote body value)
    (h : ∀ afterBlank, splitHeader ⟨depth, none, afterBlank⟩ (body.reverse ++ before) rest =
      some split) :
    splitHeader ⟨depth, some quote, afterBlank⟩ before (body ++ rest) = some split := by
  induction hbody generalizing before afterBlank with
  | close =>
    rw [List.singleton_append, splitHeader_inQuote _ hquote.ne_backslash, if_pos rfl]
    exact h _
  | escape c _ ih =>
    simp only [List.cons_append, splitHeader, reduceIte]
    refine ih fun afterBlank => ?_
    simpa using h afterBlank
  | char hc hne _ ih =>
    rw [List.cons_append, splitHeader_inQuote _ hc, if_neg hne]
    refine ih fun afterBlank => ?_
    simpa using h afterBlank

/-- **A text with matching brackets is passed over** on the way to the last `as`. -/
theorem splitHeader_bracketed {cs : List Char} (hcs : Bracketed cs) {rest : List Char}
    (h : ∀ afterBlank, splitHeader ⟨depth, none, afterBlank⟩ (cs.reverse ++ before) rest =
      some split) :
    splitHeader ⟨depth, none, afterBlank⟩ before (cs ++ rest) = some split := by
  induction hcs generalizing depth before afterBlank rest with
  | nil => exact h afterBlank
  | @plain c cs hc _ ih =>
    obtain ⟨hsingle, hdouble, hparen, hparen', hbracket, hbracket'⟩ := isPlain_iff.1 hc
    refine splitHeader_of_later ?_
    simp only [hsingle, hdouble, hparen, hparen', hbracket, hbracket', or_self, if_false]
    refine ih fun afterBlank => ?_
    simpa using h afterBlank
  | @quoted quote body value cs hquote hbody _ ih =>
    rw [List.cons_append, List.append_assoc]
    have hlater : ∀ afterBlank, splitHeader ⟨depth, none, afterBlank⟩
        (body.reverse ++ quote :: before) (cs ++ rest) = some split :=
      fun _ => ih fun afterBlank => by simpa using h afterBlank
    have hbody := @splitHeader_quoted _ (Text.isAsciiBlank quote) _ _ _ hquote _ _ _ hbody hlater
    refine splitHeader_of_later ?_
    rcases hquote with rfl | rfl <;> exact hbody
  | round _ _ ihinner ih =>
    rw [List.cons_append, List.append_assoc, List.cons_append]
    refine splitHeader_of_later (ihinner fun _ => splitHeader_of_later (ih fun afterBlank => ?_))
    simpa using h afterBlank
  | square _ _ ihinner ih =>
    rw [List.cons_append, List.append_assoc, List.cons_append]
    refine splitHeader_of_later (ihinner fun _ => splitHeader_of_later (ih fun afterBlank => ?_))
    simpa using h afterBlank

end Headers

end Hashmark
