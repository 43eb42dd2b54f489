import Hashmark.Proofs.Compiling.Constants

/-!
# Texts and their tokens

Which tokens a text is read as (`Lexes`), without the places of the tokens. Two texts are read one
behind the other if the second one begins with a character that goes on with no token
(`Lexes.append`): so what is put around an expression does not change the tokens of it.
-/

namespace Hashmark.Expression

open Lexer (bind_eq_ok)
open Number (takeDigits)

/-! ### Characters between tokens -/

/-- The characters that may stand right behind any token. -/
def isSeparator (c : Char) : Bool :=
  c == ' ' || c == ')' || c == ']' || c == ',' || c == '-' || c == '(' || c == '['

theorem isSeparator_cases {c : Char} (h : isSeparator c = true) :
    c = ' ' ∨ c = ')' ∨ c = ']' ∨ c = ',' ∨ c = '-' ∨ c = '(' ∨ c = '[' := by
  simpa [isSeparator, or_assoc] using h

theorem isNameChar_of_isSeparator {c : Char} (h : isSeparator c = true) : isNameChar c = false := by
  rcases isSeparator_cases h with rfl | rfl | rfl | rfl | rfl | rfl | rfl <;> decide

theorem isDigit_of_isSeparator {c : Char} (h : isSeparator c = true) :
    c.isDigit = false ∧ c ≠ '.' := by
  rcases isSeparator_cases h with rfl | rfl | rfl | rfl | rfl | rfl | rfl <;> decide

theorem isBlank_of_isNameStart {c : Char} (h : isNameStart c = true) : Text.isBlank c = false := by
  have hrange : c = '_' ∨ (65 ≤ c.toNat ∧ c.toNat ≤ 90) ∨ (97 ≤ c.toNat ∧ c.toNat ≤ 122) := by
    simp only [isNameStart, Char.isAlpha, Char.isUpper, Char.isLower, Bool.or_eq_true,
      Bool.and_eq_true, decide_eq_true_eq, beq_iff_eq, ge_iff_le, UInt32.le_iff_toNat_le,
      Char.toNat_val] at h
    simpa [or_comm] using h
  rcases hrange with rfl | hrange
  · decide
  · simp only [Text.isBlank, Bool.or_eq_false_iff, Bool.and_eq_false_iff, decide_eq_false_iff_not,
      beq_eq_false_iff_ne]
    omega

theorem eq_append_of_readSymbol {s : Symbol} {cs rest : List Char}
    (h : readSymbol cs = some (s, rest)) : cs = s.text.toList ++ rest := by
  unfold readSymbol at h
  split at h <;> cases h <;> rfl

/-- No token begins with a blank. -/
theorem isBlank_of_readToken {c : Char} {cs rest : List Char} {t : Token}
    (h : readToken c cs = .ok (t, rest)) : Text.isBlank c = false := by
  unfold readToken at h
  split_ifs at h with hdollar hstart hdigit hquote
  case pos =>
    rw [hdollar]
    rfl
  case pos => exact isBlank_of_isNameStart hstart
  case pos => exact isBlank_of_isDigit hdigit
  case pos => rcases hquote with rfl | rfl <;> rfl
  case neg =>
    split at h
    · next s rest hsymbol =>
      have heq := eq_append_of_readSymbol hsymbol
      cases s <;>
      · obtain ⟨rfl, -⟩ := List.cons.inj heq
        rfl
    · cases h

/-! ### Strings -/

/-- The characters with which a string begins and ends. -/
def IsQuote (quote : Char) : Prop :=
  quote = '\'' ∨ quote = '"'

theorem IsQuote.ne_backslash {quote : Char} (h : IsQuote quote) : quote ≠ '\\' := by
  rcases h with rfl | rfl <;> decide

/-- What is behind the first quote of a string, up to the quote that ends it, and what the string
stands for. -/
inductive Quoted (quote : Char) : List Char → List Char → Prop
  | close : Quoted quote [quote] []
  | escape (c : Char) {cs value : List Char} (h : Quoted quote cs value) :
    Quoted quote ('\\' :: c :: cs) (unescaped c :: value)
  | char {c : Char} {cs value : List Char} (hc : c ≠ '\\') (hquote : c ≠ quote)
      (h : Quoted quote cs value) : Quoted quote (c :: cs) (c :: value)

section Quoted

variable {quote c : Char} {cs body value rest : List Char}

/-- A character of a string, other than a backslash. -/
theorem readQuoted_cons (hc : c ≠ '\\') (cs : List Char) :
    readQuoted quote (c :: cs) = if c = quote then some ([], cs) else
      (readQuoted quote cs).map fun (value, rest) => (c :: value, rest) := by
  rw [readQuoted]
  · split
    · rfl
    · cases readQuoted quote cs <;> rfl
  · exact fun h => absurd h hc
  · exact fun _ _ h => absurd h hc

/-- A string is read up to the quote that ends it. -/
theorem exists_of_readQuoted (h : readQuoted quote cs = some (value, rest)) :
    ∃ body, cs = body ++ rest ∧ Quoted quote body value := by
  fun_induction readQuoted quote cs generalizing value with
  | case1 => cases h
  | case2 => cases h
  | case3 c tail ih =>
    obtain ⟨⟨value', rest'⟩, h', heq⟩ := Option.bind_eq_some_iff.1 h
    cases heq
    obtain ⟨body, rfl, hbody⟩ := ih h'
    exact ⟨'\\' :: c :: body, rfl, hbody.escape c⟩
  | case4 tail _ _ =>
    cases h
    exact ⟨[quote], rfl, .close⟩
  | case5 c tail hlast hescape hquote ih =>
    -- a backslash would have been read together with the next character
    have hc : c ≠ '\\' := by
      rintro rfl
      cases tail with
      | nil => exact hlast rfl rfl
      | cons c tail => exact hescape c tail rfl rfl
    obtain ⟨⟨value', rest'⟩, h', heq⟩ := Option.bind_eq_some_iff.1 h
    cases heq
    obtain ⟨body, rfl, hbody⟩ := ih h'
    exact ⟨c :: body, rfl, hbody.char hc hquote⟩

/-- **A string is read**, whatever follows. -/
theorem Quoted.readQuoted_append (hquote : IsQuote quote) (h : Quoted quote body value)
    (rest : List Char) : readQuoted quote (body ++ rest) = some (value, rest) := by
  induction h with
  | close => rw [List.singleton_append, readQuoted_cons hquote.ne_backslash, if_pos rfl]
  | escape c _ ih => simp [readQuoted, ih]
  | char hc hne _ ih =>
    rw [List.cons_append, readQuoted_cons hc, if_neg hne, ih]
    rfl

end Quoted

/-! ### Whole texts -/

/-- The tokens of some lexemes. -/
def tokensOf (ls : List Lexeme) : List Token :=
  ls.map (·.token)

@[simp] theorem tokensOf_nil : tokensOf [] = [] := rfl

@[simp] theorem tokensOf_cons (l : Lexeme) (ls : List Lexeme) :
    tokensOf (l :: ls) = l.token :: tokensOf ls := rfl

@[simp] theorem tokensOf_append (ls ls' : List Lexeme) :
    tokensOf (ls ++ ls') = tokensOf ls ++ tokensOf ls' :=
  List.map_append

/-- Whether a text is read as some tokens, wherever it stands. -/
inductive Lexes : List Char → List Token → Prop
  | nil : Lexes [] []
  | blank {c : Char} {cs : List Char} {ts : List Token} (hc : Text.isAsciiBlank c = true)
      (h : Lexes cs ts) : Lexes (c :: cs) ts
  | token {c : Char} {cs rest : List Char} {t : Token} {ts : List Token}
      (hc : Text.isAsciiBlank c = false) (hread : readToken c cs = .ok (t, rest))
      (h : Lexes rest ts) : Lexes (c :: cs) (t :: ts)

theorem lexes_of_tokenizeFrom {pos : Nat} {cs : List Char} {ls : List Lexeme}
    (h : tokenizeFrom pos cs = .ok ls) : Lexes cs (tokensOf ls) := by
  fun_induction tokenizeFrom pos cs generalizing ls with
  | case1 =>
    cases h
    exact .nil
  | case2 pos c cs hc ih => exact .blank hc (ih h)
  | case3 => cases h
  | case4 pos c cs hc t rest hread =>
    rename_i ih
    obtain ⟨ls, hls, h⟩ := bind_eq_ok.1 h
    cases h
    exact .token (by simpa using hc) hread (ih hls)

theorem Lexes.tokenizeFrom {cs : List Char} {ts : List Token} (h : Lexes cs ts) (pos : Nat) :
    ∃ ls, tokenizeFrom pos cs = .ok ls ∧ tokensOf ls = ts := by
  induction h generalizing pos with
  | nil => exact ⟨[], by rw [Expression.tokenizeFrom], rfl⟩
  | blank hc _ ih =>
    rw [Expression.tokenizeFrom, if_pos hc]
    exact ih _
  | @token c cs rest t ts hc hread _ ih =>
    rw [Expression.tokenizeFrom, if_neg (by simp [hc])]
    split
    · next fault hfault =>
      rw [hread] at hfault
      cases hfault
    · next t' rest' hread' =>
      rw [hread] at hread'
      cases hread'
      obtain ⟨ls, hls, rfl⟩ := ih
        (pos + byteCount ((c :: cs).take ((c :: cs).length - rest.length)))
      exact ⟨⟨t, pos⟩ :: ls, by simp only [hls, bind, Except.bind, pure, Except.pure], rfl⟩

/-- The tokens of a text are those of its lexemes. -/
theorem lexes_iff {text : String} {ts : List Token} :
    Lexes text.toList ts ↔ ∃ ls, tokenize text = .ok ls ∧ tokensOf ls = ts := by
  constructor
  · exact fun h => h.tokenizeFrom 0
  · rintro ⟨ls, hls, rfl⟩
    exact lexes_of_tokenizeFrom hls

/-- A text with a token is not blank. -/
theorem Lexes.isEmpty_trimChars {cs : List Char} {ts : List Token} (h : Lexes cs ts)
    (hne : ts ≠ []) : (Text.trimChars cs).isEmpty = false := by
  induction h with
  | nil => exact absurd rfl hne
  | blank hc _ ih =>
    rw [Text.trimChars, List.dropWhile_cons_of_pos (Text.isBlank_of_isAsciiBlank hc)]
    exact ih hne
  | token _ hread _ _ => exact trimChars_cons (isBlank_of_readToken hread) _

/-! ### Texts one behind the other -/

section Append

variable {c : Char} {cs rest u : List Char}

theorem takeWhile_append_of_head? {p : Char → Bool} (cs : List Char)
    (hu : ∀ c ∈ u.head?, p c = false) : (cs ++ u).takeWhile p = cs.takeWhile p := by
  induction cs with
  | nil =>
    cases u with
    | nil => rfl
    | cons c u => simp [hu c rfl]
  | cons c cs ih => simp only [List.cons_append, List.takeWhile_cons, ih]

theorem dropWhile_append_of_head? {p : Char → Bool} (cs : List Char)
    (hu : ∀ c ∈ u.head?, p c = false) : (cs ++ u).dropWhile p = cs.dropWhile p ++ u := by
  induction cs with
  | nil =>
    cases u with
    | nil => rfl
    | cons c u => simp [hu c rfl]
  | cons c cs ih =>
    simp only [List.cons_append, List.dropWhile_cons, ih]
    split <;> rfl

/-- The characters of a class in front of the first one outside of it. -/
theorem takeWhile_front {p : Char → Bool} (hcs : ∀ c ∈ cs, p c = true)
    (hu : ∀ c ∈ u.head?, p c = false) : (cs ++ u).takeWhile p = cs := by
  rw [takeWhile_append_of_head? cs hu, List.takeWhile_eq_self_iff.2 hcs]

theorem dropWhile_front {p : Char → Bool} (hcs : ∀ c ∈ cs, p c = true)
    (hu : ∀ c ∈ u.head?, p c = false) : (cs ++ u).dropWhile p = u := by
  rw [dropWhile_append_of_head? cs hu, List.dropWhile_eq_nil_iff.2 hcs, List.nil_append]

theorem takeDigits_append_of_head? (cs : List Char) (hu : ∀ c ∈ u.head?, c.isDigit = false) :
    takeDigits (cs ++ u) = ((takeDigits cs).1, (takeDigits cs).2 ++ u) := by
  induction cs with
  | nil =>
    cases u with
    | nil => rfl
    | cons c u => simp [takeDigits, Number.digit?, hu c rfl]
  | cons c cs ih =>
    simp only [List.cons_append, takeDigits, ih]
    split <;> rfl

theorem readFraction_append (cs : List Char)
    (hu : ∀ c ∈ u.head?, c.isDigit = false ∧ c ≠ '.') :
    Expression.readFraction (cs ++ u) =
      ((Expression.readFraction cs).1, (Expression.readFraction cs).2 ++ u) := by
  have hdigit := fun c hc => (hu c hc).1
  cases cs with
  | nil =>
    cases u with
    | nil => rfl
    | cons c u =>
      have hpoint := (hu c rfl).2
      simp [Expression.readFraction, hpoint]
  | cons c cs =>
    by_cases hc : c = '.'
    · subst hc
      simp only [List.cons_append, Expression.readFraction, takeDigits_append_of_head? cs hdigit]
      cases hdigits : takeDigits cs with
      | mk ds rest => cases ds <;> rfl
    · simp [Expression.readFraction, hc]

theorem readNumber_append {t : Token} (h : readNumber cs = .ok (t, rest))
    (hu : ∀ c ∈ u.head?, c.isDigit = false ∧ c ≠ '.') :
    readNumber (cs ++ u) = .ok (t, rest ++ u) := by
  have hdigits := takeDigits_append_of_head? cs fun c hc => (hu c hc).1
  have hfraction := readFraction_append (takeDigits cs).2 hu
  simp only [readNumber, hdigits, hfraction] at h ⊢
  split_ifs at h ⊢
  · cases h
    rfl
  · cases h
    rfl

/-- A symbol is read where it was read, if what follows begins no longer symbol. -/
theorem readSymbol_append {s : Symbol} (h : readSymbol cs = some (s, rest))
    (hu : ∀ c ∈ u.head?, isSeparator c = true) :
    readSymbol (cs ++ u) = some (s, rest ++ u) := by
  have hhead : ∀ c ∈ u.head?, c ≠ '>' ∧ c ≠ '=' ∧ c ≠ '|' := by
    intro c hc
    rcases isSeparator_cases (hu c hc) with rfl | rfl | rfl | rfl | rfl | rfl | rfl <;> decide
  unfold readSymbol at h
  split at h <;> cases h
  all_goals
    first
    | rfl
    | -- a symbol with which longer ones begin: none of them stands there
      rename_i hnone
      rw [List.cons_append, readSymbol]
      intro tail heq
      cases rest with
      | nil =>
        obtain rfl : u = _ := heq
        simpa using hhead _ rfl
      | cons c rest =>
        cases heq
        exact hnone _ rfl

/-- **A token is read where it was read** if a separator follows the text. -/
theorem readToken_append {t : Token} (h : readToken c cs = .ok (t, rest))
    (hu : ∀ c ∈ u.head?, isSeparator c = true) :
    readToken c (cs ++ u) = .ok (t, rest ++ u) := by
  have hname : ∀ c ∈ u.head?, isNameChar c = false :=
    fun c hc => isNameChar_of_isSeparator (hu c hc)
  have hnumber : ∀ c ∈ u.head?, c.isDigit = false ∧ c ≠ '.' :=
    fun c hc => isDigit_of_isSeparator (hu c hc)
  unfold readToken at h ⊢
  rw [takeWhile_append_of_head? cs hname, dropWhile_append_of_head? cs hname]
  split_ifs at h ⊢ with hdollar hstart hdigit hquote
  case pos =>
    split at h
    · cases h
    · cases h
      rfl
  case pos =>
    cases h
    rfl
  case pos => exact readNumber_append h hnumber
  case pos =>
    split at h
    · next hquoted =>
      obtain ⟨body, rfl, hbody⟩ := exists_of_readQuoted hquoted
      cases h
      rw [List.append_assoc, hbody.readQuoted_append hquote]
    · cases h
  case neg =>
    split at h
    · next hsymbol =>
      rw [← List.cons_append, readSymbol_append hsymbol hu]
      cases h
      rfl
    · cases h

end Append

/-- **Two texts are read one behind the other**, if the second one begins with a separator. -/
theorem Lexes.append {cs u : List Char} {ts ts' : List Token} (h : Lexes cs ts)
    (h' : Lexes u ts') (hu : ∀ c ∈ u.head?, isSeparator c = true) :
    Lexes (cs ++ u) (ts ++ ts') := by
  induction h with
  | nil => exact h'
  | blank hc _ ih => exact ih.blank hc
  | token hc hread _ ih => exact ih.token hc (readToken_append hread hu)

end Hashmark.Expression
