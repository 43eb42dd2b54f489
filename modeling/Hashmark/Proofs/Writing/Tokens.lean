import Hashmark.Proofs.Grammar.Texts

/-!
# Writing tokens

How the tokens of an expression are written, so that they are read back (`lexes_written`). A
blank stands between two tokens unless they may touch: brackets, commas and arrows hug the operands
at which they stand, and that keeps the text of an expression as one would write it by hand.
-/

namespace Hashmark.Expression

open Number (takeDigits digitsOf foldDigits takeDigits_append foldDigits_digitsOf toNat_of_isDigit)

/-! ### How a token is written -/

/-- A character of a string in single quotes. -/
def quotedChar (c : Char) : List Char :=
  if c = '\\' ∨ c = '\'' then ['\\', c] else [c]

/-- A string in single quotes. -/
def quotedText (value : List Char) : List Char :=
  '\'' :: (value.flatMap quotedChar ++ ['\''])

/-- The text of a token. A float has none of its own: many numerals are read as one double. -/
def Token.written : Token → List Char
  | .variable name => '$' :: name.toList
  | .word name => name.toList
  | .str value => quotedText value.toList
  | .int value => (toString value).toList
  | .float _ => []
  | .symbol s => s.text.toList

/-- What the tokens of a text are like. -/
def Token.WellFormed : Token → Prop
  | .variable name => name.toList ≠ [] ∧ ∀ c ∈ name.toList, isNameChar c = true
  | .word name => isName name.toList = true
  | .int value => ∃ n ≤ Int64.maxValue.toNatClampNeg, value = Int64.ofNat n
  | .str _ | .float _ | .symbol _ => True

/-- Whether a token is read back from its text. -/
def Token.Exact (t : Token) : Prop :=
  t.WellFormed ∧ ∀ x, t ≠ .float x

/-! ### Tokens that touch -/

/-- The symbols right behind which the next token stands. -/
def Symbol.opens : Symbol → Bool
  | .openParen | .openBracket | .arrow => true
  | _ => false

/-- The symbols that stand right behind the token before them. -/
def Symbol.closes : Symbol → Bool
  | .closeParen | .closeBracket | .comma | .arrow => true
  | _ => false

/-- The tokens that can be the last of an operand. -/
def Token.endsOperand : Token → Bool
  | .symbol s => s == .closeParen || s == .closeBracket
  | _ => true

/-- Whether the second token stands right behind the first one. -/
def Token.touches : Token → Token → Bool
  | .symbol a, .symbol b => a.opens || b.closes || (b.opens && (Token.symbol a).endsOperand)
  | .symbol a, _ => a.opens
  | a, .symbol b => b.closes || (b.opens && a.endsOperand)
  | _, _ => false

/-- The text between two tokens. -/
def gap (a b : Token) : List Char :=
  if a.touches b then [] else [' ']

/-- The text of some tokens behind the token `before`. -/
def writtenAfter (before : Token) : List Token → List Char
  | [] => []
  | t :: ts => gap before t ++ t.written ++ writtenAfter t ts

/-- The text of some tokens. -/
def writtenTokens : List Token → List Char
  | [] => []
  | t :: ts => t.written ++ writtenAfter t ts

/-- Whether a token ends where a text goes on. -/
def Token.EndsBefore (t : Token) (rest : List Char) : Prop :=
  (∃ s : Symbol, t = .symbol s ∧ s.opens = true) ∨ ∀ c ∈ rest.head?, isSeparator c = true

/-- A token that is touched ends there. -/
theorem Token.endsBefore_of_touches {a b : Token} (h : a.touches b = true) (rest : List Char) :
    a.EndsBefore (b.written ++ rest) := by
  have hsymbol : ∀ s : Symbol, s.closes = true ∨ s.opens = true →
      a.EndsBefore ((Token.symbol s).written ++ rest) := by
    intro s hs
    refine .inr fun c hc => ?_
    cases s <;> simp [Symbol.closes, Symbol.opens] at hs <;> cases hc <;> rfl
  cases a with
  | symbol s =>
    by_cases hopens : s.opens = true
    · exact .inl ⟨s, rfl, hopens⟩
    · cases b with
      | symbol s' =>
        apply hsymbol
        simp only [touches, hopens, Bool.false_or, Bool.or_eq_true, Bool.and_eq_true] at h
        exact h.imp_right And.left
      | _ => exact absurd h hopens
  | _ =>
    cases b with
    | symbol s' =>
      apply hsymbol
      simp only [touches, Bool.or_eq_true, Bool.and_eq_true] at h
      exact h.imp_right And.left
    | _ => cases h

/-! ### Reading one token back -/

theorem quoted_quotedText (value : List Char) :
    Quoted '\'' (value.flatMap quotedChar ++ ['\'']) value := by
  induction value with
  | nil => exact .close
  | cons c value ih =>
    rw [List.flatMap_cons, List.append_assoc]
    by_cases hescaped : c = '\\' ∨ c = '\''
    · -- a backslash in front of a backslash or a quote stands for the character itself
      have hitself : unescaped c = c := by
        rcases hescaped with rfl | rfl <;> rfl
      have hread := ih.escape c
      rw [quotedChar, if_pos hescaped]
      rwa [hitself] at hread
    · obtain ⟨hbackslash, hquote⟩ := not_or.1 hescaped
      rw [quotedChar, if_neg hescaped]
      exact ih.char hbackslash hquote

theorem toString_ofNat {n : Nat} (h : n ≤ Int64.maxValue.toNatClampNeg) :
    (toString (Int64.ofNat n)).toList = Nat.toDigits 10 n := by
  have hvalue : (Int64.ofNat n).toInt = n := Int64.toInt_ofNat_of_lt (Nat.lt_succ_of_le h)
  show (toString (Int64.ofNat n).toInt).toList = _
  rw [hvalue]
  exact Nat.toList_repr

/-- Without a point there is no fraction. -/
theorem readFraction_of_head? {rest : List Char} (hrest : ∀ c ∈ rest.head?, c ≠ '.') :
    Expression.readFraction rest = ([], rest) := by
  unfold Expression.readFraction
  split
  · exact absurd rfl (hrest '.' rfl)
  · rfl

theorem readNumber_toDigits {n : Nat} (h : n ≤ Int64.maxValue.toNatClampNeg) {rest : List Char}
    (hrest : ∀ c ∈ rest.head?, c.isDigit = false)
    (hfraction : Expression.readFraction rest = ([], rest)) :
    readNumber (Nat.toDigits 10 n ++ rest) = .ok (.int (Int64.ofNat n), rest) := by
  have hdigits : takeDigits (Nat.toDigits 10 n ++ rest) = (digitsOf (Nat.toDigits 10 n), rest) :=
    takeDigits_append (fun c hc => Nat.isDigit_of_mem_toDigits (by decide) (by decide) hc) hrest
  have hvalue : foldDigits 0 (digitsOf (Nat.toDigits 10 n)) = n := by
    rw [foldDigits_digitsOf, Nat.ofDigitChars_toDigits (by decide) (by decide)]
  simp only [readNumber, hdigits, hfraction, hvalue]
  simp [h]

/-- Whether `t` is read from the text `c :: cs`, behind which `rest` is left. -/
def Reads (t : Token) (written rest : List Char) : Prop :=
  ∃ c cs, written = c :: cs ∧ readToken c (cs ++ rest) = .ok (t, rest)

theorem isNameChar_of_isNameStart {c : Char} (h : isNameStart c = true) :
    isNameChar c = true := by
  simp only [isNameStart, isNameChar, Char.isAlphanum, Bool.or_eq_true] at h ⊢
  tauto

theorem exists_cons_of_isName {cs : List Char} (h : isName cs = true) :
    ∃ c rest, cs = c :: rest ∧ isNameStart c = true ∧ ∀ c ∈ rest, isNameChar c = true := by
  cases cs with
  | nil => cases h
  | cons c rest =>
    rw [isName, Bool.and_eq_true, List.all_eq_true] at h
    exact ⟨c, rest, rfl, h.1, h.2⟩

theorem isName_chars {cs : List Char} (h : isName cs = true) :
    cs ≠ [] ∧ ∀ c ∈ cs, isNameChar c = true := by
  obtain ⟨c, rest, rfl, hstart, hchars⟩ := exists_cons_of_isName h
  exact ⟨List.cons_ne_nil _ _,
    List.forall_mem_cons.2 ⟨isNameChar_of_isNameStart hstart, hchars⟩⟩

/-- A token that is a text is read at the front of one, if a separator follows. -/
theorem Reads.append {t : Token} {written rest : List Char} (h : Reads t written [])
    (hrest : ∀ c ∈ rest.head?, isSeparator c = true) : Reads t written rest := by
  obtain ⟨c, cs, rfl, hread⟩ := h
  rw [List.append_nil] at hread
  exact ⟨c, cs, rfl, readToken_append hread hrest⟩

/-- A name is read up to the first character that is none of a name. -/
theorem reads_variable {name : String} (hne : name.toList ≠ [])
    (hname : ∀ c ∈ name.toList, isNameChar c = true) {rest : List Char}
    (hrest : ∀ c ∈ rest.head?, isNameChar c = false) :
    Reads (.variable name) (Token.variable name).written rest := by
  refine ⟨'$', name.toList, rfl, ?_⟩
  rw [readToken, if_pos rfl, takeWhile_front hname hrest, dropWhile_front hname hrest]
  split
  · next hnil => exact absurd hnil hne
  · rw [String.ofList_toList]

theorem reads_word {name : String} (hname : isName name.toList = true) {rest : List Char}
    (hrest : ∀ c ∈ rest.head?, isNameChar c = false) :
    Reads (.word name) (Token.word name).written rest := by
  obtain ⟨c, cs, hcons, hstart, hchars⟩ := exists_cons_of_isName hname
  have hdollar : c ≠ '$' := by
    rintro rfl
    exact absurd hstart (by decide)
  refine ⟨c, cs, hcons, ?_⟩
  rw [readToken, if_neg hdollar, if_pos hstart, takeWhile_front hchars hrest,
    dropWhile_front hchars hrest, ← hcons, String.ofList_toList]

theorem reads_str (value : String) : Reads (.str value) (Token.str value).written [] := by
  have hread := (quoted_quotedText value.toList).readQuoted_append (.inl rfl) []
  refine ⟨'\'', value.toList.flatMap quotedChar ++ ['\''], rfl, ?_⟩
  rw [readToken, if_neg (by decide), if_neg (by decide), if_neg (by decide), if_pos (.inl rfl),
    hread]
  simp only [String.ofList_toList]

/-- A whole number is read up to its last digit, if no fraction follows. -/
theorem reads_int {n : Nat} (h : n ≤ Int64.maxValue.toNatClampNeg) {rest : List Char}
    (hrest : ∀ c ∈ rest.head?, c.isDigit = false)
    (hfraction : Expression.readFraction rest = ([], rest)) :
    Reads (.int (Int64.ofNat n)) (Token.int (Int64.ofNat n)).written rest := by
  have hdigits : ∀ c ∈ Nat.toDigits 10 n, c.isDigit = true := fun c hc =>
    Nat.isDigit_of_mem_toDigits (by decide) (by decide) hc
  obtain ⟨c, cs, hcons⟩ := List.exists_cons_of_ne_nil (Nat.toDigits_ne_nil (n := n) (b := 10))
  have hdigit : c.isDigit = true := hdigits c (by simp [hcons])
  refine ⟨c, cs, by rw [Token.written, toString_ofNat h, hcons], ?_⟩
  rw [readToken_of_isDigit hdigit, ← List.cons_append, ← hcons,
    readNumber_toDigits h hrest hfraction]

theorem reads_symbol (s : Symbol) : Reads (.symbol s) (Token.symbol s).written [] := by
  cases s <;> exact ⟨_, _, rfl, rfl⟩

/-- No longer symbol begins with one of those right behind which the next token stands. -/
theorem reads_opening {s : Symbol} (h : s.opens = true) (rest : List Char) :
    Reads (.symbol s) (Token.symbol s).written rest := by
  cases s <;> first | exact ⟨_, _, rfl, rfl⟩ | cases h

/-- **A token is read back from its text**, if it ends where the text goes on. -/
theorem reads_written {t : Token} (h : t.Exact) {rest : List Char} (hrest : t.EndsBefore rest) :
    Reads t t.written rest := by
  rcases hrest with ⟨s, rfl, hopens⟩ | hseparator
  · exact reads_opening hopens rest
  · have hname : ∀ c ∈ rest.head?, isNameChar c = false :=
      fun c hc => isNameChar_of_isSeparator (hseparator c hc)
    have hnumber : ∀ c ∈ rest.head?, c.isDigit = false ∧ c ≠ '.' :=
      fun c hc => isDigit_of_isSeparator (hseparator c hc)
    match t, h with
    | .variable name, h => exact reads_variable h.1.1 h.1.2 hname
    | .word name, h => exact reads_word h.1 hname
    | .str value, _ => exact (reads_str value).append hseparator
    | .int value, h =>
      obtain ⟨n, hn, rfl⟩ := h.1
      exact reads_int hn (fun c hc => (hnumber c hc).1)
        (readFraction_of_head? fun c hc => (hnumber c hc).2)
    | .float x, h => exact absurd rfl (h.2 x)
    | .symbol s, _ => exact (reads_symbol s).append hseparator

/-! ### Reading a whole text back -/

/-- A text of which a token is the beginning. -/
theorem Lexes.of_reads {t : Token} {ts : List Token} {written rest : List Char}
    (h : Reads t written rest) (hrest : Lexes rest ts) : Lexes (written ++ rest) (t :: ts) := by
  obtain ⟨c, cs, rfl, hread⟩ := h
  refine .token ?_ hread hrest
  by_contra hblank
  have hblank := Text.isBlank_of_isAsciiBlank (by simpa using hblank)
  rw [isBlank_of_readToken hread] at hblank
  cases hblank

/-- A token ends before the tokens that are written behind it. -/
theorem endsBefore_writtenAfter (t : Token) (ts : List Token) :
    t.EndsBefore (writtenAfter t ts) := by
  cases ts with
  | nil => exact .inr nofun
  | cons t' ts =>
    rw [writtenAfter, gap]
    cases htouches : t.touches t' with
    | true =>
      rw [if_pos rfl, List.nil_append]
      exact Token.endsBefore_of_touches htouches _
    | false =>
      rw [if_neg (by decide)]
      refine .inr fun c hc => ?_
      cases hc
      rfl

theorem lexes_writtenAfter {ts : List Token} (hts : ∀ t ∈ ts, t.Exact) (before : Token) :
    Lexes (writtenAfter before ts) ts := by
  induction ts generalizing before with
  | nil => exact .nil
  | cons t ts ih =>
    obtain ⟨ht, hts⟩ := List.forall_mem_cons.1 hts
    have htoken := Lexes.of_reads (reads_written ht (endsBefore_writtenAfter t ts)) (ih hts t)
    rw [writtenAfter, gap, List.append_assoc]
    split
    · exact htoken
    · exact .blank rfl htoken

/-- **Tokens are read back from their text.** -/
theorem lexes_written {ts : List Token} (hts : ∀ t ∈ ts, t.Exact) :
    Lexes (writtenTokens ts) ts := by
  cases ts with
  | nil => exact .nil
  | cons t ts =>
    obtain ⟨ht, hts⟩ := List.forall_mem_cons.1 hts
    exact .of_reads (reads_written ht (endsBefore_writtenAfter t ts)) (lexes_writtenAfter hts t)

end Hashmark.Expression
