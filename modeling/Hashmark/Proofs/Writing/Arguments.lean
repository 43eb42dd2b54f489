import Hashmark.Proofs.Grammar.Brackets
import Hashmark.Proofs.Writing.ReadingBack
import Hashmark.Proofs.Writing.Results

/-!
# Writing the arguments of markers

The builder reads back what stands between the brackets of a marker: an expression
(`readExpr_argText`), the header of a loop (`loopHeader_written`), and quoted texts
(`textArgs_written`).
-/

namespace Hashmark

open Expression
open Lexer (bind_eq_ok)

/-- Whether an expression can stand in a template: some text stands for it, it has no floats, and
everything it calls may be called. -/
structure Expr.Writable (callables : Callables) (e : Expr) : Prop where
  returned : ∃ text, parseExpr text = .ok e
  floats : e.floats = []
  allowed : e.violation? callables = none

theorem Expr.Writable.wellFormed {callables : Callables} {e : Expr} (h : e.Writable callables) :
    e.WellFormed := by
  obtain ⟨text, htext⟩ := h.returned
  exact wellFormed_of_parseExpr htext

/-- What can stand in a template, told from the expression alone. -/
theorem Expr.writable_iff {callables : Callables} {e : Expr} : e.Writable callables ↔
    e.WellFormed ∧ e.floats = [] ∧ e.violation? callables = none := by
  constructor
  · intro h
    exact ⟨h.wellFormed, h.floats, h.allowed⟩
  · rintro ⟨hformed, hfloats, hallowed⟩
    exact ⟨⟨_, parseExpr_written hformed hfloats⟩, hfloats, hallowed⟩

theorem Expr.Writable.parseExpr_written {callables : Callables} {e : Expr}
    (h : e.Writable callables) : parseExpr (String.ofList e.written) = .ok e :=
  Hashmark.parseExpr_written h.wellFormed h.floats

theorem Expr.Writable.bracketed {callables : Callables} {e : Expr} (h : e.Writable callables) :
    Bracketed e.written := by
  simpa using bracketed_of_parseExpr h.parseExpr_written

theorem Expr.Writable.checkExpr {callables : Callables} {e : Expr} (h : e.Writable callables)
    (source : Source) (m : Marker) : Builder.checkExpr source callables m e = .ok () := by
  rw [Builder.checkExpr, h.allowed]

/-- A text that stands for an expression is not blank. -/
theorem isEmpty_trimChars_of_parseExpr {text : String} {e : Expr} (h : parseExpr text = .ok e) :
    (Text.trimChars text.toList).isEmpty = false := by
  obtain ⟨ts, hlexes, hderives⟩ := parseExpr_iff.1 h
  exact hlexes.isEmpty_trimChars (Derives.items_ne_nil (.item hderives))

/-- A text stands for the same with a blank behind it. -/
theorem parseExpr_blank {text : String} {e : Expr} (h : parseExpr text = .ok e) :
    parseExpr (text ++ " ") = .ok e := by
  obtain ⟨ts, hlexes, hderives⟩ := parseExpr_iff.1 h
  have hblank : Lexes [' '] [] := .blank rfl .nil
  refine parseExpr_iff.2 ⟨ts, ?_, hderives⟩
  simpa using hlexes.append hblank (by simp [isSeparator])

/-! ### Names -/

section Names

variable {c : Char} {cs : List Char}

theorem isBlank_of_isNameChar (h : isNameChar c = true) : Text.isBlank c = false := by
  have hcases : isNameStart c = true ∨ c.isDigit = true := by
    simp only [isNameStart, isNameChar, Char.isAlphanum, Bool.or_eq_true] at h ⊢
    tauto
  rcases hcases with h | h
  · exact isBlank_of_isNameStart h
  · exact isBlank_of_isDigit h

theorem isAsciiBlank_of_isNameChar (h : isNameChar c = true) : Text.isAsciiBlank c = false := by
  by_contra hblank
  have := Text.isBlank_of_isAsciiBlank (by simpa using hblank)
  rw [isBlank_of_isNameChar h] at this
  cases this

/-- Trimming leaves a first character that is no blank. -/
theorem exists_trimChars_cons (h : Text.isBlank c = false) (cs : List Char) :
    ∃ cs', Text.trimChars (c :: cs) = c :: cs' := by
  refine ⟨(cs.reverse.dropWhile Text.isBlank).reverse, ?_⟩
  have hlast : (cs.reverse ++ [c]).dropWhile Text.isBlank =
      cs.reverse.dropWhile Text.isBlank ++ [c] := by
    rw [List.dropWhile_append]
    split
    · next hnil => simp [List.isEmpty_iff.1 hnil, h]
    · rfl
  rw [Text.trimChars, List.dropWhile_cons_of_neg (by simp [h]), List.reverse_cons, hlast,
    List.reverse_append]
  rfl

/-- Blanks around a text without blanks. -/
theorem trimChars_of_solid (h : ∀ c ∈ cs, Text.isBlank c = false) (n : Nat) :
    Text.trimChars (' ' :: (cs ++ List.replicate n ' ')) = cs := by
  have hdrop : ∀ {cs : List Char}, (∀ c ∈ cs, Text.isBlank c = false) →
      cs.dropWhile Text.isBlank = cs := by
    intro cs h
    cases cs with
    | nil => rfl
    | cons c cs => simp [h c List.mem_cons_self]
  have hblanks : ∀ c ∈ List.replicate n ' ', Text.isBlank c = true := by
    intro c hc
    rw [List.eq_of_mem_replicate hc]
    rfl
  cases cs with
  | nil =>
    have hall : ∀ c ∈ ' ' :: ([] ++ List.replicate n ' '), Text.isBlank c = true :=
      List.forall_mem_cons.2 ⟨rfl, hblanks⟩
    rw [Text.trimChars, List.dropWhile_eq_nil_iff.2 hall]
    rfl
  | cons c cs =>
    have hc := h c List.mem_cons_self
    rw [Text.trimChars, List.dropWhile_cons_of_pos rfl, List.cons_append,
      List.dropWhile_cons_of_neg (by simp [hc]), ← List.cons_append, List.reverse_append,
      List.dropWhile_append_of_pos (by simpa using fun c hc => hblanks c hc),
      hdrop (fun c hc => h c (List.mem_reverse.1 hc)), List.reverse_reverse]

end Names

/-! ### Expressions -/

namespace Builder

variable {source : Source} {callables : Callables} {m : Marker}

/-- The expression in a marker is the one that the text stands for, if it may stand there. -/
theorem readExpr_of_parseExpr {text : String} {e : Expr} (h : parseExpr text = .ok e)
    (role : ExprRole) : readExpr source callables m role text =
      (checkExpr source callables m e).map fun _ => e := by
  rw [readExpr, h]
  show (checkExpr source callables m e >>= fun _ => pure e) = _
  cases checkExpr source callables m e <;> rfl

/-- **An expression is read back** from a marker of which it is the argument. -/
theorem readExpr_argText {e : Expr} (h : e.Writable callables) (role : ExprRole)
    (hm : m.argText = String.ofList e.written) :
    readExpr source callables m role m.argText = .ok e := by
  rw [hm, readExpr_of_parseExpr h.parseExpr_written, h.checkExpr]
  rfl

/-! ### Loops -/

/-- A variable with its `$`. -/
def writtenBinding (name : String) : List Char :=
  '$' :: name.toList

/-- What stands behind the `as` of a loop. -/
def writtenBindings (key : Option String) (value : String) : List Char :=
  match key with
  | none => writtenBinding value
  | some key => writtenBinding key ++ [' ', '=', '>', ' '] ++ writtenBinding value

/-- The header of a loop. -/
def writtenHeader (e : Expr) (key : Option String) (value : String) : List Char :=
  e.written ++ [' ', 'a', 's', ' '] ++ writtenBindings key value

/-- The header of a loop over what a text stands for. -/
def headerText (text : List Char) (key : Option String) (value : String) : List Char :=
  text ++ [' ', 'a', 's', ' '] ++ writtenBindings key value

theorem bracketed_writtenBinding {name : String} (h : isName name.toList = true) :
    Bracketed (writtenBinding name) :=
  .plain rfl (bracketed_of_plain fun c hc => isPlain_of_isNameChar ((isName_chars h).2 c hc))

theorem bracketed_headerText {text : List Char} (h : Bracketed text) {key : Option String}
    {value : String} (hkey : ∀ k ∈ key, isName k.toList = true)
    (hvalue : isName value.toList = true) : Bracketed (headerText text key value) := by
  have hbindings : Bracketed (writtenBindings key value) := by
    cases key with
    | none => exact bracketed_writtenBinding hvalue
    | some key =>
      exact ((bracketed_writtenBinding (hkey key rfl)).append
        (bracketed_of_plain (List.all_eq_true.1 rfl))).append (bracketed_writtenBinding hvalue)
  exact (h.append (bracketed_of_plain (List.all_eq_true.1 rfl))).append hbindings

/-- Whether there is no `as` in a text, outside of brackets. -/
def Silent (afterBlank : Bool) (cs : List Char) : Prop :=
  ∀ before, splitHeader ⟨0, none, afterBlank⟩ before cs = none

section Silent

variable {afterBlank : Bool} {c : Char} {cs : List Char}

theorem silent_nil : Silent afterBlank [] := by
  intro before
  rw [splitHeader]

theorem Silent.cons (h : Silent (Text.isAsciiBlank c) cs) (hplain : isPlain c = true)
    (hc : c ≠ 'a' ∨ afterBlank = false) : Silent afterBlank (c :: cs) := by
  intro before
  obtain ⟨hsingle, hdouble, hparen, hparen', hbracket, hbracket'⟩ := isPlain_iff.1 hplain
  have hlater := h (c :: before)
  have has : ¬(c = 'a' ∧ True ∧ afterBlank = true) := by
    rintro ⟨rfl, -, hblank⟩
    exact hc.elim (fun h => h rfl) fun h => by rw [hblank] at h; cases h
  cases cs with
  | nil => simp [splitHeader]
  | cons c' cs =>
    simp only [splitHeader, hsingle, hdouble, hparen, hparen', hbracket, hbracket', or_self,
      if_false, hlater]
    split
    · next heq => cases heq
    · rw [if_neg]
      rintro ⟨ha, -, hblank, -⟩
      exact has ⟨ha, trivial, hblank⟩
    · rfl

theorem Silent.append_name (h : Silent false cs) {name : List Char}
    (hname : ∀ c ∈ name, isNameChar c = true) : Silent false (name ++ cs) := by
  induction name with
  | nil => exact h
  | cons c name ih =>
    obtain ⟨hc, hname⟩ := List.forall_mem_cons.1 hname
    refine Silent.cons ?_ (isPlain_of_isNameChar hc) (.inr rfl)
    rw [isAsciiBlank_of_isNameChar hc]
    exact ih hname

theorem silent_bindings {key : Option String} {value : String}
    (hkey : ∀ k ∈ key, isName k.toList = true) (hvalue : isName value.toList = true) :
    Silent true (writtenBindings key value) := by
  have hname {afterBlank : Bool} {name : String} {cs : List Char} (h : isName name.toList = true)
      (hcs : Silent false cs) : Silent afterBlank (writtenBinding name ++ cs) := by
    have hchars : Silent (Text.isAsciiBlank '$') (name.toList ++ cs) :=
      hcs.append_name (isName_chars h).2
    exact hchars.cons rfl (.inl (by decide))
  have hlast {afterBlank : Bool} : Silent afterBlank (writtenBinding value) := by
    have := @hname afterBlank value [] hvalue silent_nil
    rwa [List.append_nil] at this
  cases key with
  | none => exact hlast
  | some key =>
    have harrow : Silent false ([' ', '=', '>', ' '] ++ writtenBinding value) :=
      .cons (.cons (.cons (.cons hlast rfl (.inl (by decide))) rfl (.inl (by decide))) rfl
        (.inl (by decide))) rfl (.inl (by decide))
    rw [writtenBindings, List.append_assoc]
    exact hname (hkey key rfl) harrow

end Silent

/-- The header of a loop is split at its last `as`. -/
theorem splitHeader_text {text bindings : List Char} (htext : Bracketed text)
    (h : Silent true bindings) :
    splitHeader ⟨0, none, false⟩ [] (text ++ [' ', 'a', 's', ' '] ++ bindings) =
      some (text ++ [' '], ' ' :: bindings) := by
  -- behind the `as` there is no other one
  have hsilent : Silent false ('s' :: ' ' :: bindings) :=
    .cons (.cons h rfl (.inl (by decide))) rfl (.inl (by decide))
  have has : ∀ before, splitHeader ⟨0, none, true⟩ before ('a' :: 's' :: ' ' :: bindings) =
      some (before.reverse, ' ' :: bindings) := by
    intro before
    have hlater : splitHeader ⟨0, none, Text.isAsciiBlank 'a'⟩ ('a' :: before)
        ('s' :: ' ' :: bindings) = none := hsilent _
    have hblank : Text.isAsciiBlank ' ' = true := rfl
    simp [splitHeader.eq_3 _ _ 'a', hlater, hblank]
  rw [List.append_assoc]
  refine splitHeader_bracketed htext fun afterBlank => ?_
  refine splitHeader_of_later ((has _).trans ?_)
  simp

theorem splitArrows_of_not_mem {cs : List Char} (h : '=' ∉ cs) : splitArrows cs = [cs] := by
  induction cs with
  | nil => rw [splitArrows]
  | cons c cs ih =>
    obtain ⟨hc, hcs⟩ := not_or.1 (List.mem_cons.not.1 h)
    rw [splitArrows, ih hcs]
    exact fun _ heq => absurd heq.symm hc

theorem splitArrows_append {cs : List Char} (h : '=' ∉ cs) (rest : List Char) :
    splitArrows (cs ++ '=' :: '>' :: rest) = cs :: splitArrows rest := by
  induction cs with
  | nil => rw [List.nil_append, splitArrows]
  | cons c cs ih =>
    obtain ⟨hc, hcs⟩ := not_or.1 (List.mem_cons.not.1 h)
    rw [List.cons_append, splitArrows, ih hcs]
    exact fun _ heq => absurd heq.symm hc

/-- A variable is read back, with a blank before it and blanks behind it. -/
theorem bindingName?_written {name : String} (h : isName name.toList = true) (n : Nat) :
    bindingName? (' ' :: (writtenBinding name ++ List.replicate n ' ')) = some name := by
  have hsolid : ∀ c ∈ writtenBinding name, Text.isBlank c = false :=
    List.forall_mem_cons.2 ⟨rfl, fun c hc => isBlank_of_isNameChar ((isName_chars h).2 c hc)⟩
  rw [bindingName?, trimChars_of_solid hsolid]
  simp [writtenBinding, h]

theorem not_mem_writtenBinding {name : String} (h : isName name.toList = true) :
    '=' ∉ writtenBinding name := by
  intro hmem
  rcases List.mem_cons.1 hmem with heq | hmem
  · cases heq
  · exact absurd ((isName_chars h).2 '=' hmem) (by decide)

/-- **The header of a loop is read** as the expression that its first part stands for, and the
names behind its `as`. -/
theorem loopHeader_of_parseExpr {text : String} {e : Expr} (h : parseExpr text = .ok e)
    {key : Option String} {value : String} (hkey : ∀ k ∈ key, isName k.toList = true)
    (hvalue : isName value.toList = true)
    (hm : m.argText = String.ofList (headerText text.toList key value)) :
    loopHeader source callables m =
      (checkExpr source callables m e).map fun _ => (e, key, value) := by
  have hsplit := splitHeader_text (bracketed_of_parseExpr h) (silent_bindings hkey hvalue)
  have hread : readExpr source callables m .loopSource (String.ofList (text.toList ++ [' '])) =
      (checkExpr source callables m e).map fun _ => e := by
    rw [String.ofList_append, String.ofList_toList]
    exact readExpr_of_parseExpr (parseExpr_blank h) .loopSource
  have hbindings : (splitArrows (' ' :: writtenBindings key value)).map bindingName? =
      match key with
      | none => [some value]
      | some key => [some key, some value] := by
    have hlast : (splitArrows (' ' :: writtenBinding value)).map bindingName? = [some value] := by
      have hname := bindingName?_written hvalue 0
      rw [List.replicate_zero, List.append_nil] at hname
      rw [splitArrows_of_not_mem (by simp [not_mem_writtenBinding hvalue]), List.map_singleton,
        hname]
    cases key with
    | none => exact hlast
    | some key =>
      have hkey := hkey key rfl
      have hnone : '=' ∉ ' ' :: (writtenBinding key ++ [' ']) := by
        simp [not_mem_writtenBinding hkey]
      have hsplit := splitArrows_append hnone (' ' :: writtenBinding value)
      have hfirst : bindingName? (' ' :: (writtenBinding key ++ [' '])) = some key :=
        bindingName?_written hkey 1
      simp only [writtenBindings, List.append_assoc, List.cons_append, List.nil_append] at hsplit ⊢
      rw [hsplit, List.map_cons, hfirst, hlast]
  rw [loopHeader, hm, String.toList_ofList, headerText, hsplit]
  dsimp only
  rw [hread, hbindings]
  cases checkExpr source callables m e <;> cases key <;> rfl

/-- **The header of a loop is read back.** -/
theorem loopHeader_written {e : Expr} (he : e.Writable callables) {key : Option String}
    {value : String} (hkey : ∀ k ∈ key, isName k.toList = true)
    (hvalue : isName value.toList = true)
    (hm : m.argText = String.ofList (writtenHeader e key value)) :
    loopHeader source callables m = .ok (e, key, value) := by
  have hheader : m.argText =
      String.ofList (headerText (String.ofList e.written).toList key value) := by
    rw [hm, String.toList_ofList]
    rfl
  rw [loopHeader_of_parseExpr he.parseExpr_written hkey hvalue hheader, he.checkExpr]
  rfl

/-! ### Quoted texts -/

/-- Texts as constants. -/
def textExprs (texts : List String) : List Expr :=
  texts.map fun text => .lit (.str text)

/-- Quoted texts, with commas between them. -/
def writtenTexts (texts : List String) : List Char :=
  writtenTokens (Expr.tokensOfList (textExprs texts))

example : String.ofList (writtenTexts ["a'b", "c"]) = "'a\\'b', 'c'" := by decide +kernel

theorem wellFormed_textExprs (texts : List String) : Expr.WellFormedList (textExprs texts) := by
  induction texts with
  | nil => trivial
  | cons text texts ih => exact ⟨trivial, ih⟩

theorem floats_textExprs (texts : List String) : Expr.floatsOfList (textExprs texts) = [] := by
  induction texts with
  | nil => rfl
  | cons text texts ih => exact ih

/-- What reads each constant reads all the texts. -/
theorem mapM_textExprs {f : Expr → Except TemplateError String}
    (h : ∀ text, f (.lit (.str text)) = .ok text) (texts : List String) :
    (textExprs texts).mapM f = .ok texts := by
  induction texts with
  | nil => rfl
  | cons text texts ih =>
    rw [textExprs, List.map_cons, List.mapM_cons]
    exact bind_eq_ok.2 ⟨text, h text, bind_eq_ok.2 ⟨texts, ih, rfl⟩⟩

theorem bracketed_writtenTexts (texts : List String) : Bracketed (writtenTexts texts) := by
  have hformed := wellFormed_textExprs texts
  have hexact := Expr.tokensOfListWith_exact false _ hformed (floats_textExprs texts)
  have hderives := derives_list (Expr.derivesItems false _ hformed)
  rw [Expr.tokensOfListWith_false] at hexact hderives
  exact hderives.bracketed (lexes_written hexact)

section Texts

variable {texts : List String} {text : String}

/-- **Quoted texts are read back.** -/
theorem textArgs_written (hne : texts ≠ []) {least most : Nat} (hleast : least ≤ texts.length)
    (hmost : texts.length ≤ most) (hm : m.argText = String.ofList (writtenTexts texts)) :
    textArgs source m least most = .ok texts := by
  have hparse : parseArgs m.argText = .ok (textExprs texts) := by
    rw [hm]
    exact parseArgs_written (by simpa [textExprs] using hne) (wellFormed_textExprs texts)
      (floats_textExprs texts)
  have hcount : ¬((textExprs texts).length < least ∨ most < (textExprs texts).length) := by
    simp only [textExprs, List.length_map]
    omega
  rw [textArgs, hparse]
  simp only [Except.mapError, bind, Except.bind, if_neg hcount]
  exact mapM_textExprs (fun _ => rfl) texts

theorem textArg_written (hm : m.argText = String.ofList (writtenTexts [text])) :
    textArg source m = .ok text := by
  have hargs : textArgs source m 1 1 = .ok [text] :=
    textArgs_written (List.cons_ne_nil _ _) le_rfl le_rfl hm
  rw [textArg, hargs]
  rfl

/-- The name of a section is in quotes, so it is read as a text. -/
theorem sectionName_written (hm : m.argText = String.ofList (writtenTexts [text])) :
    sectionName source m = .ok text := by
  have hquoted : (Text.trim m.argText).startsWith "'" = true := by
    obtain ⟨cs, hcs⟩ := exists_trimChars_cons (c := '\'') rfl
      (text.toList.flatMap quotedChar ++ ['\''])
    have htext : Text.trimChars m.argText.toList = '\'' :: cs := by
      rw [hm, String.toList_ofList, ← hcs]
      simp [writtenTexts, textExprs, Expr.tokensOfList, Expr.tokens, Literal.token, writtenTokens,
        writtenAfter, Token.written, quotedText]
    rw [String.startsWith_string_iff, Text.trim, htext]
    exact ⟨cs, by simp⟩
  rw [sectionName, hquoted]
  exact textArg_written hm

end Texts

end Builder

end Hashmark
