import Hashmark.Proofs.Compiling.Pages
import Hashmark.Proofs.Storing.Numerals

/-!
# Templates that are one constant

A template that is one marker with a decimal numeral is compiled to the double nearest to the
numeral, however many digits the numeral has (`parseTemplate_decimal`). So any such double can stand
in an artifact, infinity included.
-/

namespace Hashmark

open Expression Number

variable {whole fraction : List Char} {c : Char}

/-! ### Digits -/

theorem isBlank_of_isDigit (h : c.isDigit = true) : Text.isBlank c = false := by
  obtain ⟨hlow, hhigh⟩ := toNat_of_isDigit h
  simp only [Text.isBlank, Bool.or_eq_false_iff, Bool.and_eq_false_iff, decide_eq_false_iff_not,
    beq_eq_false_iff_ne]
  omega

theorem isNameStart_of_isDigit (h : c.isDigit = true) : isNameStart c = false := by
  obtain ⟨hlow, hhigh⟩ := toNat_of_isDigit h
  have hunderscore : c ≠ '_' := ne_of_isDigit h rfl
  simp only [isNameStart, Char.isAlpha, Char.isUpper, Char.isLower, Bool.or_eq_false_iff,
    Bool.and_eq_false_iff, decide_eq_false_iff_not, beq_eq_false_iff_ne, ge_iff_le,
    UInt32.le_iff_toNat_le, Char.toNat_val]
  simp [hunderscore]
  omega

/-- A digit starts a number. -/
theorem readToken_of_isDigit (h : c.isDigit = true) (cs : List Char) :
    readToken c cs = readNumber (c :: cs) := by
  rw [readToken, if_neg (ne_of_isDigit h rfl), isNameStart_of_isDigit h, if_neg (by decide),
    if_pos h]

/-! ### Numerals -/

/-- The numeral up to the end of a text. -/
theorem readNumber_decimal (hwhole : ∀ c ∈ whole, c.isDigit = true)
    (hfraction : ∀ c ∈ fraction, c.isDigit = true) (hne : fraction ≠ []) :
    readNumber (whole ++ '.' :: fraction) =
      .ok (.float (Numeral.nearest ⟨false, digitsOf whole, digitsOf fraction, 0⟩), []) := by
  have htake : takeDigits (whole ++ '.' :: fraction) = (digitsOf whole, '.' :: fraction) :=
    takeDigits_append hwhole (by simp)
  have htake' : takeDigits (fraction ++ []) = (digitsOf fraction, []) :=
    takeDigits_append hfraction (by simp)
  rw [List.append_nil] at htake'
  obtain ⟨d, ds, hdigits⟩ := List.exists_cons_of_ne_nil (digitsOf_ne_nil hne)
  have hread : Expression.readFraction ('.' :: fraction) = (digitsOf fraction, []) := by
    simp [Expression.readFraction, htake', hdigits]
  simp [readNumber, htake, hread, digitsOf_ne_nil hne]

/-- A text that is one token. -/
theorem tokenize_of_readToken {cs : List Char} {token : Token}
    (hblank : Text.isAsciiBlank c = false) (h : readToken c cs = .ok (token, [])) :
    tokenize (String.ofList (c :: cs)) = .ok [⟨token, 0⟩] := by
  rw [tokenize, String.toList_ofList, tokenizeFrom, hblank, if_neg (by decide)]
  split
  case h_1 fault hfault =>
    rw [h] at hfault
    cases hfault
  case h_2 token' rest hread =>
    rw [h] at hread
    cases hread
    simp [tokenizeFrom]

/-- A decimal numeral is a constant. -/
theorem parseExpr_decimal (hwhole : ∀ c ∈ whole, c.isDigit = true) (hne : whole ≠ [])
    (hfraction : ∀ c ∈ fraction, c.isDigit = true) (hne' : fraction ≠ []) :
    parseExpr (String.ofList (whole ++ '.' :: fraction)) =
      .ok (.lit (.float (Numeral.nearest ⟨false, digitsOf whole, digitsOf fraction, 0⟩))) := by
  have hnumber := readNumber_decimal hwhole hfraction hne'
  obtain ⟨c, cs, rfl⟩ := List.exists_cons_of_ne_nil hne
  have hdigit : c.isDigit = true := hwhole c List.mem_cons_self
  have hblank : Text.isAsciiBlank c = false := by
    by_contra h
    have := Text.isBlank_of_isAsciiBlank (by simpa using h)
    rw [isBlank_of_isDigit hdigit] at this
    cases this
  rw [List.cons_append, ← readToken_of_isDigit hdigit] at hnumber
  rw [parseExpr, List.cons_append, tokenize_of_readToken hblank hnumber]
  rfl

/-! ### Markers -/

theorem trimChars_cons (h : Text.isBlank c = false) (cs : List Char) :
    (Text.trimChars (c :: cs)).isEmpty = false := by
  simp only [Text.trimChars, List.dropWhile_cons, h, Bool.false_eq_true, if_false,
    List.isEmpty_eq_false_iff, ne_eq, List.reverse_eq_nil_iff, List.dropWhile_eq_nil_iff,
    List.mem_reverse]
  intro hall
  have hblank := hall c List.mem_cons_self
  rw [h] at hblank
  cases hblank

/-- Whether a text has no quote and no square bracket. -/
def IsBracketless (cs : List Char) : Prop :=
  ∀ c ∈ cs, c ≠ '\'' ∧ c ≠ '"' ∧ c ≠ '[' ∧ c ≠ ']'

/-- A text without quotes and brackets is closed by the first bracket. -/
theorem readClosed_of_isBracketless {cs : List Char} (h : IsBracketless cs) (rest : List Char) :
    Lexer.readClosed '[' ']' 0 none (cs ++ ']' :: rest) = some (cs, rest) := by
  induction cs with
  | nil => rfl
  | cons c cs ih =>
    obtain ⟨hsingle, hdouble, hopen, hclose⟩ := h c List.mem_cons_self
    have htail := ih fun c hc => h c (List.mem_cons_of_mem _ hc)
    simp [Lexer.readClosed, hsingle, hdouble, hopen, hclose, htail]

/-- The segments of a source that is one marker with an expression. -/
theorem segments_expression (directives : Directives) (name : String) {cs : List Char}
    (hcs : IsBracketless cs) (hblank : (Text.trimChars cs).isEmpty = false) :
    ∃ m : Marker,
      segments directives ⟨name, String.ofList ('#' :: '[' :: (cs ++ [']']))⟩ = .ok [.marker m] ∧
        m.kind = .expression ∧ m.argText = String.ofList cs := by
  have hmarker : ∀ source, Lexer.readMarker directives source 0 ('[' :: (cs ++ [']'])) =
      .ok (some ⟨.expression, [], some cs, 2, []⟩) := by
    intro source
    simp [Lexer.readMarker, readClosed_of_isBracketless hcs, hblank]
  rw [segments, String.toList_ofList, Lexer.scanFrom]
  split
  case h_1 fault hfault =>
    rw [hmarker] at hfault
    cases hfault
  case h_2 hnone =>
    rw [hmarker] at hnone
    cases hnone
  case h_3 r hread =>
    -- behind the marker nothing is left to scan
    rw [hmarker] at hread
    cases hread
    refine ⟨(Lexer.Reading.mk .expression [] (some cs) 2 []).marker 0
      ('#' :: '[' :: (cs ++ [']'])), ?_, rfl, rfl⟩
    simp only [Lexer.scanFrom]
    rfl

/-- The template of one marker with an expression. -/
theorem build_expression (language : Language) (source : Source) {m : Marker} {cs : List Char}
    {e : Expr} (hkind : m.kind = .expression) (hargs : m.argText = String.ofList cs)
    (hparse : parseExpr (String.ofList cs) = .ok e)
    (hallowed : e.violation? language.callables = none) :
    Builder.build source language [.marker m] = .ok ⟨none, [.emit e]⟩ := by
  have hread : Builder.readExpr source language.callables m .expression m.argText = .ok e := by
    rw [Builder.readExpr, hargs, hparse]
    show (Builder.checkExpr source language.callables m e >>= fun _ => pure e) = _
    rw [Builder.checkExpr, hallowed]
    rfl
  simp only [Builder.build, List.foldlM_cons, List.foldlM_nil, Builder.step, Builder.marker, hkind,
    hread]
  rfl

/-- A source that is one marker with an expression. -/
theorem parseTemplate_expression (language : Language) (name : String) {cs : List Char} {e : Expr}
    (hcs : IsBracketless cs) (hblank : (Text.trimChars cs).isEmpty = false)
    (hparse : parseExpr (String.ofList cs) = .ok e)
    (hallowed : e.violation? language.callables = none) :
    parseTemplate language ⟨name, String.ofList ('#' :: '[' :: (cs ++ [']']))⟩ =
      .ok ⟨none, [.emit e]⟩ := by
  obtain ⟨m, hsegments, hkind, hargs⟩ :=
    segments_expression language.directives name hcs hblank
  have hbalance : ∀ source, checkBalance source [m] = .ok () := by
    intro source
    simp only [checkBalance, List.foldlM_cons, List.foldlM_nil, Balance.step, hkind]
    rfl
  have hscan : scan language.directives ⟨name, String.ofList ('#' :: '[' :: (cs ++ [']']))⟩ =
      .ok [.marker m] := by
    rw [scan, hsegments]
    show (checkBalance _ [m] >>= fun _ => pure [Segment.marker m]) = _
    rw [hbalance]
    rfl
  rw [parseTemplate, hscan]
  exact build_expression language _ hkind hargs hparse hallowed

/-- **Templates that are one constant.** A marker with a decimal numeral writes the double nearest
to the numeral. -/
theorem parseTemplate_decimal (language : Language) (name : String)
    (hwhole : ∀ c ∈ whole, c.isDigit = true) (hne : whole ≠ [])
    (hfraction : ∀ c ∈ fraction, c.isDigit = true) (hne' : fraction ≠ []) :
    parseTemplate language
        ⟨name, String.ofList ('#' :: '[' :: (whole ++ '.' :: fraction ++ [']']))⟩ =
      .ok ⟨none, [.emit (.lit (.float
        (Numeral.nearest ⟨false, digitsOf whole, digitsOf fraction, 0⟩)))]⟩ := by
  -- neither digits nor the point are quotes, brackets or blanks
  have hchars : ∀ c ∈ whole ++ '.' :: fraction, c = '.' ∨ c.isDigit = true := by
    intro c hc
    rcases List.mem_append.1 hc with hc | hc
    · exact .inr (hwhole c hc)
    · rcases List.mem_cons.1 hc with rfl | hc
      · exact .inl rfl
      · exact .inr (hfraction c hc)
  have hplain : IsBracketless (whole ++ '.' :: fraction) := by
    intro c hc
    rcases hchars c hc with rfl | hdigit
    · decide
    · exact ⟨ne_of_isDigit hdigit rfl, ne_of_isDigit hdigit rfl, ne_of_isDigit hdigit rfl,
        ne_of_isDigit hdigit rfl⟩
  have hblank : (Text.trimChars (whole ++ '.' :: fraction)).isEmpty = false := by
    obtain ⟨c, cs, rfl⟩ := List.exists_cons_of_ne_nil hne
    exact trimChars_cons (isBlank_of_isDigit (hwhole c List.mem_cons_self)) _
  exact parseTemplate_expression language name hplain hblank
    (parseExpr_decimal hwhole hne hfraction hne') rfl

end Hashmark
