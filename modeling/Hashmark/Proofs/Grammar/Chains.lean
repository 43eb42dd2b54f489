import Hashmark.Proofs.Grammar.Completeness

/-!
# Chains of fields

A variable with fields behind it, one after the other, stands for the fields of the fields of the
variable (`fieldTree`). Behind an arrow each field is read by itself. Behind a point a number is not:
with the point and the number behind it, it is read as one decimal fraction, and then the field has
no name. So `$v->0->1` is read and `$v.0.1` is not (`parseExpr_accessChain`).

For the reading, the tokens of a chain derive the tree. For the rest, whatever tokens derive: each
point and each arrow among them is followed by a token that names a field (`Derives.namesFields`).
-/

namespace Hashmark.Expression

/-! ### Chains -/

/-- The name of a variable: letters, digits and `_` in any order, at least one. -/
structure VariableName where
  text : String
  chars : text.toList ≠ [] ∧ ∀ c ∈ text.toList, isNameChar c = true

/-- The name of a field: an identifier, or a whole number of 64 bits. -/
inductive FieldName where
  | word (name : String) (h : isName name.toList = true)
  | number (value : Int64)

namespace FieldName

/-- How the name is written, a number in its shortest form. -/
def text : FieldName → String
  | word name _ => name
  | number value => toString value

/-- The token that stands for the name. -/
def token : FieldName → Token
  | word name _ => .word name
  | number value => .int value

/-- Whether the name is a number. -/
def IsNumber : FieldName → Prop
  | word _ _ => False
  | number _ => True

/-- Whether the name is a number with a sign. -/
def IsNegative : FieldName → Prop
  | word _ _ => False
  | number value => value < 0

theorem fieldName?_token (f : FieldName) : fieldName? f.token = some f.text := by
  cases f <;> rfl

end FieldName

/-- Fields, each one behind an `access`. -/
def accessTail (access : Symbol) (fs : List FieldName) : String :=
  String.join (fs.map fun f => access.text ++ f.text)

/-- A variable with fields behind it. -/
def accessChain (access : Symbol) (v : VariableName) (fs : List FieldName) : String :=
  "$" ++ v.text ++ accessTail access fs

/-- The tokens of fields, each one behind an `access`. -/
def accessTokens (access : Symbol) : List FieldName → List Token
  | [] => []
  | f :: fs => .symbol access :: f.token :: accessTokens access fs

/-- The field of the field, and so on, of a variable. -/
def fieldTree (v : VariableName) (fs : List FieldName) : Expr :=
  fs.foldl (fun base f => .field base f.text) (.var v.text)

/-- Whether an `access` may stand in front of a field. -/
def IsAccess (access : Symbol) : Prop :=
  access = .dot ∨ access = .arrow

/-- Whether each field of a chain is read as a token of its own: none has a sign, and with points
between them, no number follows another one. -/
structure ReadsApart (access : Symbol) (fs : List FieldName) : Prop where
  nonneg : ∀ f ∈ fs, ¬f.IsNegative
  apart : access = .dot → fs.IsChain fun f g => ¬(f.IsNumber ∧ g.IsNumber)

theorem toList_accessTail_cons (access : Symbol) (f : FieldName) (fs : List FieldName) :
    (accessTail access (f :: fs)).toList =
      access.text.toList ++ (f.text.toList ++ (accessTail access fs).toList) := by
  simp [accessTail]

theorem toList_accessChain (access : Symbol) (v : VariableName) (fs : List FieldName) :
    (accessChain access v fs).toList =
      (Token.variable v.text).written ++ (accessTail access fs).toList := by
  simp [accessChain, Token.written]

/-! ### What tokens derive -/

/-- The tokens of fields behind those of an expression. -/
theorem derives_accessTokens {access : Symbol} (haccess : IsAccess access) (fs : List FieldName)
    {base : Expr} {ts : List Token} (h : Derives (.operand postfixRank base) ts) :
    Derives (.operand postfixRank (fs.foldl (fun base f => .field base f.text) base))
      (ts ++ accessTokens access fs) := by
  induction fs generalizing base ts with
  | nil => rwa [accessTokens, List.append_nil]
  | cons f fs ih =>
    have hfield := ih (h.field haccess f.fieldName?_token)
    rwa [List.append_assoc] at hfield

/-- Whether each point and each arrow is followed by a token that names a field. -/
def NamesFields : List Token → Prop
  | [] => True
  | t :: ts =>
    (∀ access, IsAccess access → t = .symbol access → ∃ name ∈ ts.head?, (fieldName? name).isSome) ∧
      NamesFields ts

/-- Whether a token is neither a point nor an arrow. -/
def Token.NoAccess (t : Token) : Prop :=
  ∀ access, IsAccess access → t ≠ .symbol access

section NamesFields

variable {t : Token} {ts ts' : List Token}

theorem NamesFields.append (h : NamesFields ts) (h' : NamesFields ts') :
    NamesFields (ts ++ ts') := by
  induction ts with
  | nil => exact h'
  | cons t ts ih =>
    refine ⟨fun access haccess ht => ?_, ih h.2⟩
    obtain ⟨name, hname, hfield⟩ := h.1 access haccess ht
    exact ⟨name, by simp [Option.mem_def.1 hname], hfield⟩

theorem NamesFields.cons (h : NamesFields ts) (ht : t.NoAccess) : NamesFields (t :: ts) :=
  ⟨fun access haccess heq => absurd heq (ht access haccess), h⟩

theorem noAccess_symbol {s : Symbol} (hdot : s ≠ .dot) (harrow : s ≠ .arrow) :
    (Token.symbol s).NoAccess := by
  rintro access (rfl | rfl) heq
  · exact hdot (Token.symbol.inj heq)
  · exact harrow (Token.symbol.inj heq)

theorem noAccess_of_atom? {e : Expr} (h : atom? t = some e) : t.NoAccess := by
  rintro access - rfl
  cases h

theorem noAccess_of_fieldName? {name : String} (h : fieldName? t = some name) : t.NoAccess := by
  rintro access - rfl
  cases h

theorem noAccess_of_unaryOperator? {op : UnaryOp} (h : unaryOperator? t = some op) :
    t.NoAccess := by
  rintro access (rfl | rfl) rfl <;> cases h

theorem noAccess_of_operator? {level : Level} {op : BinaryOp} (h : level.operator? t = some op) :
    t.NoAccess := by
  rintro access (rfl | rfl) rfl <;> cases level <;> cases h

theorem noAccess_word (name : String) : (Token.word name).NoAccess :=
  fun _ _ => nofun

theorem namesFields_singleton (ht : t.NoAccess) : NamesFields [t] :=
  @NamesFields.cons t [] trivial ht

/-- Tokens between a symbol and another one, neither of them an access. -/
theorem NamesFields.between {opening closing : Symbol} (h : NamesFields ts)
    (hopening : (Token.symbol opening).NoAccess) (hclosing : (Token.symbol closing).NoAccess) :
    NamesFields (.symbol opening :: (ts ++ [.symbol closing])) :=
  (h.append (namesFields_singleton hclosing)).cons hopening

/-- **Each point and each arrow names a field** among tokens that stand for something. -/
theorem Derives.namesFields {p : Phrase} (h : Derives p ts) : NamesFields ts := by
  have hparens {inner : List Token} (h : NamesFields inner) :
      NamesFields (.symbol .openParen :: (inner ++ [.symbol .closeParen])) :=
    h.between (noAccess_symbol nofun nofun) (noAccess_symbol nofun nofun)
  have hbrackets {inner : List Token} (h : NamesFields inner) :
      NamesFields (.symbol .openBracket :: (inner ++ [.symbol .closeBracket])) :=
    h.between (noAccess_symbol nofun nofun) (noAccess_symbol nofun nofun)
  have hbar {more : List Token} (name : String) (h : NamesFields more) :
      NamesFields (.symbol .bar :: .word name :: more) :=
    (h.cons (noAccess_word name)).cons (noAccess_symbol nofun nofun)
  induction h with
  | atom hatom => exact namesFields_singleton (noAccess_of_atom? hatom)
  | constant _ | name _ _ => exact namesFields_singleton (noAccess_word _)
  | parens _ ih => exact hparens ih
  | brackets _ ih => exact hbrackets ih
  | call _ _ _ ih => exact (hparens ih).cons (noAccess_word _)
  | field _ _ hname ih =>
    have hnoAccess := noAccess_of_fieldName? hname
    refine ih.append ⟨fun _ _ _ => ⟨_, rfl, ?_⟩, namesFields_singleton hnoAccess⟩
    rw [hname]
    rfl
  | index _ _ ih ihkey => exact ih.append (hbrackets ihkey)
  | pipe _ ih => exact ih.append (hbar _ trivial)
  | filter _ _ ih ihargs => exact ih.append (hbar _ (hparens ihargs))
  | unary hop _ ih => exact ih.cons (noAccess_of_unaryOperator? hop)
  | binary hop _ _ ih ih' => exact ih.append (ih'.cons (noAccess_of_operator? hop))
  | tighter _ _ ih | item _ ih | full _ ih => exact ih
  | cons _ _ ih ihs => exact ih.append (ihs.cons (noAccess_symbol nofun nofun))
  | empty => trivial

end NamesFields

/-! ### How fields are read -/

section Reading

variable {access : Symbol} {f : FieldName} {fs : List FieldName} {rest : List Char}
  {ts : List Token}

/-- A point and an arrow are read whatever follows. -/
theorem reads_access (haccess : IsAccess access) (rest : List Char) :
    Reads (.symbol access) access.text.toList rest := by
  rcases haccess with rfl | rfl <;> exact ⟨_, _, rfl, rfl⟩

/-- A text that begins with no blank begins with a token. -/
theorem Lexes.exists_readToken {c : Char} {cs : List Char} (h : Lexes (c :: cs) ts)
    (hc : Text.isBlank c = false) :
    ∃ t rest more, ts = t :: more ∧ readToken c cs = .ok (t, rest) ∧ Lexes rest more := by
  cases h with
  | blank hblank _ =>
    rw [Text.isBlank_of_isAsciiBlank hblank] at hc
    cases hc
  | token _ hread hrest => exact ⟨_, _, _, rfl, hread, hrest⟩

/-- If the token at the front names a field, then it is read there. -/
theorem Lexes.exists_fieldName {c : Char} {cs : List Char} (h : Lexes (c :: cs) ts)
    (hc : Text.isBlank c = false) (hfield : ∃ name ∈ ts.head?, (fieldName? name).isSome) :
    ∃ t rest, readToken c cs = .ok (t, rest) ∧ fieldName? t ≠ none := by
  obtain ⟨t, rest, more, rfl, hread, -⟩ := h.exists_readToken hc
  obtain ⟨_, ⟨⟩, hsome⟩ := hfield
  exact ⟨t, rest, hread, Option.isSome_iff_ne_none.1 hsome⟩

/-- Tokens are read in one way only. -/
theorem Lexes.eq_cons_of_reads {t : Token} {written : List Char}
    (h : Lexes (written ++ rest) ts) (hread : Reads t written rest) :
    ∃ more, ts = t :: more ∧ Lexes rest more := by
  obtain ⟨c, cs, rfl, hread⟩ := hread
  rw [List.cons_append] at h
  obtain ⟨t', rest', more, rfl, hread', hmore⟩ := h.exists_readToken (isBlank_of_readToken hread)
  rw [hread] at hread'
  cases hread'
  exact ⟨more, rfl, hmore⟩

theorem exists_ofNat_of_nonneg {value : Int64} (h : ¬value < 0) :
    ∃ n ≤ Int64.maxValue.toNatClampNeg, value = Int64.ofNat n :=
  ⟨value.toNatClampNeg, Nat.le_of_lt_succ value.toNatClampNeg_lt,
    (Int64.ofNat_toNatClampNeg value (Int64.not_lt.1 h)).symm⟩

/-- A number with a sign begins with it. -/
theorem exists_cons_of_neg {value : Int64} (h : value < 0) :
    ∃ cs, (toString value).toList = '-' :: cs := by
  obtain ⟨n, hn⟩ := Int.eq_negSucc_of_lt_zero (Int64.lt_iff_toInt_lt.1 h)
  show ∃ cs, value.toInt.repr.toList = '-' :: cs
  rw [hn]
  exact ⟨(n + 1).repr.toList, by simp [Int.repr]⟩

/-- A number without a sign consists of digits. -/
theorem exists_digits_of_nonneg {value : Int64} (h : ¬value < 0) :
    ∃ c cs, (toString value).toList = c :: cs ∧ ∀ d ∈ c :: cs, d.isDigit = true := by
  obtain ⟨n, hn, rfl⟩ := exists_ofNat_of_nonneg h
  obtain ⟨c, cs, hcons⟩ := List.exists_cons_of_ne_nil (Nat.toDigits_ne_nil (n := n) (b := 10))
  refine ⟨c, cs, by rw [toString_ofNat hn, hcons], fun d hd => ?_⟩
  exact Nat.isDigit_of_mem_toDigits (by decide) (by decide) (hcons ▸ hd)

/-- No field of a chain begins as a name or a number goes on. -/
theorem isNameChar_accessTail (haccess : IsAccess access) (fs : List FieldName) :
    ∀ c ∈ (accessTail access fs).toList.head?, isNameChar c = false := by
  cases fs with
  | nil => nofun
  | cons f fs =>
    rw [toList_accessTail_cons]
    rcases haccess with rfl | rfl
    all_goals
      rintro c ⟨⟩
      decide

theorem isDigit_of_isNameChar {c : Char} (h : isNameChar c = false) : c.isDigit = false := by
  simp only [isNameChar, Char.isAlphanum, Bool.or_eq_false_iff] at h
  exact h.1.2

/-- A field is read up to the text behind it, if it has no sign and no fraction follows a number. -/
theorem FieldName.reads (hneg : ¬f.IsNegative) (hrest : ∀ c ∈ rest.head?, isNameChar c = false)
    (hfraction : f.IsNumber → readFraction rest = ([], rest)) :
    Reads f.token f.text.toList rest := by
  cases f with
  | word name hname => exact reads_word hname hrest
  | number value =>
    obtain ⟨n, hn, rfl⟩ := exists_ofNat_of_nonneg hneg
    exact reads_int hn (fun c hc => isDigit_of_isNameChar (hrest c hc)) (hfraction trivial)

/-- A minus begins no token that names a field. -/
theorem fieldName?_of_minus {cs rest' : List Char} {t : Token}
    (h : readToken '-' cs = .ok (t, rest')) : fieldName? t = none := by
  rw [readToken, if_neg (by decide), if_neg (by decide), if_neg (by decide), if_neg (by decide)]
    at h
  split at h
  · cases h
    rfl
  · cases h

/-- Digits with a fraction behind them are one token, which names no field. -/
theorem fieldName?_of_fraction {c : Char} {cs rest' : List Char} {t : Token}
    (hdigits : ∀ d ∈ c :: cs, d.isDigit = true) (hrest : ∀ d ∈ rest.head?, d.isDigit = false)
    (hfraction : (readFraction rest).1 ≠ []) (h : readToken c (cs ++ rest) = .ok (t, rest')) :
    fieldName? t = none := by
  rw [readToken_of_isDigit (hdigits c List.mem_cons_self), ← List.cons_append, readNumber,
    Number.takeDigits_append hdigits hrest] at h
  dsimp only at h
  rw [if_pos (by simpa using hfraction)] at h
  cases h
  rfl

/-- **What is read as the name of a field**: if the token in front of a text names one, it has no
sign, and no fraction follows a number. -/
theorem FieldName.of_lexes (h : Lexes (f.text.toList ++ rest) ts)
    (hfield : ∃ name ∈ ts.head?, (fieldName? name).isSome)
    (hrest : ∀ c ∈ rest.head?, isNameChar c = false) :
    ¬f.IsNegative ∧ (f.IsNumber → (readFraction rest).1 = []) := by
  cases f with
  | word name hname => exact ⟨id, False.elim⟩
  | number value =>
    by_cases hneg : value < 0
    · obtain ⟨cs, hcs⟩ := exists_cons_of_neg hneg
      rw [FieldName.text, hcs, List.cons_append] at h
      obtain ⟨t, rest', hread, hname⟩ := h.exists_fieldName rfl hfield
      exact absurd (fieldName?_of_minus hread) hname
    · refine ⟨hneg, fun _ => ?_⟩
      by_contra hfraction
      obtain ⟨c, cs, hcs, hdigits⟩ := exists_digits_of_nonneg hneg
      have hdigit (d : Char) (hd : d ∈ rest.head?) : d.isDigit = false :=
        isDigit_of_isNameChar (hrest d hd)
      rw [FieldName.text, hcs, List.cons_append] at h
      obtain ⟨t, rest', hread, hname⟩ :=
        h.exists_fieldName (isBlank_of_isDigit (hdigits c List.mem_cons_self)) hfield
      exact hname (fieldName?_of_fraction hdigits hdigit hfraction hread)

theorem readFraction_eq_of_nil (h : (readFraction rest).1 = []) : readFraction rest = ([], rest) := by
  unfold readFraction at h ⊢
  split at h
  · split at h
    · rfl
    · cases h
  · rfl

theorem readFraction_point (c : Char) (cs : List Char) :
    (readFraction ('.' :: c :: cs)).1 = [] ↔ c.isDigit = false := by
  cases hc : c.isDigit <;> simp [readFraction, Number.takeDigits, Number.digit?, hc]

/-- Numbers without a sign are the names that begin with a digit. -/
theorem FieldName.exists_front (f : FieldName) :
    ∃ c cs, f.text.toList = c :: cs ∧ (c.isDigit = false ↔ (f.IsNumber → f.IsNegative)) := by
  cases f with
  | word name hname =>
    obtain ⟨c, cs, hcons, hstart, -⟩ := exists_cons_of_isName hname
    refine ⟨c, cs, hcons, fun _ => False.elim, fun _ => ?_⟩
    by_contra hdigit
    rw [isNameStart_of_isDigit (by simpa using hdigit)] at hstart
    cases hstart
  | number value =>
    by_cases hneg : value < 0
    · obtain ⟨cs, hcs⟩ := exists_cons_of_neg hneg
      exact ⟨'-', cs, hcs, fun _ _ => hneg, fun _ => rfl⟩
    · obtain ⟨c, cs, hcs, hdigits⟩ := exists_digits_of_nonneg hneg
      refine ⟨c, cs, hcs, fun hdigit => ?_, fun h => absurd (h trivial) hneg⟩
      rw [hdigits c List.mem_cons_self] at hdigit
      cases hdigit

/-- **Where a fraction follows**: a point with a number behind it is one. -/
theorem readFraction_accessTail (haccess : IsAccess access) (fs : List FieldName) :
    (readFraction (accessTail access fs).toList).1 = [] ↔
      (access = .dot → ∀ f ∈ fs.head?, f.IsNumber → f.IsNegative) := by
  cases fs with
  | nil => exact ⟨fun _ _ => nofun, fun _ => rfl⟩
  | cons f fs =>
    rw [toList_accessTail_cons]
    rcases haccess with rfl | rfl
    · obtain ⟨c, cs, hcs, hfront⟩ := f.exists_front
      show (readFraction ('.' :: (f.text.toList ++ _))).1 = [] ↔ _
      rw [hcs, List.cons_append, readFraction_point, hfront]
      simp
    · exact ⟨fun _ => nofun, fun _ => rfl⟩

/-- The fields of a chain are read one by one. -/
theorem ReadsApart.lexes (haccess : IsAccess access) (h : ReadsApart access fs) :
    Lexes (accessTail access fs).toList (accessTokens access fs) := by
  induction fs with
  | nil => exact .nil
  | cons f fs ih =>
    have hrest : ReadsApart access fs :=
      ⟨fun g hg => h.nonneg g (List.mem_cons_of_mem _ hg), fun hdot => (h.apart hdot).tail⟩
    have hfraction : f.IsNumber → readFraction (accessTail access fs).toList =
        ([], (accessTail access fs).toList) := by
      intro hnumber
      refine readFraction_eq_of_nil ((readFraction_accessTail haccess fs).2 ?_)
      intro hdot g hg hgnumber
      exact absurd ⟨hnumber, hgnumber⟩ ((List.isChain_cons.1 (h.apart hdot)).1 g hg)
    have hfield := FieldName.reads (h.nonneg f List.mem_cons_self)
      (isNameChar_accessTail haccess fs) hfraction
    rw [toList_accessTail_cons]
    exact .of_reads (reads_access haccess _) (.of_reads hfield (ih hrest))

/-- **Only chains whose fields are read apart** have tokens that name a field behind each access. -/
theorem ReadsApart.of_lexes (haccess : IsAccess access)
    (h : Lexes (accessTail access fs).toList ts) (hnames : NamesFields ts) :
    ReadsApart access fs := by
  induction fs generalizing ts with
  | nil => exact ⟨nofun, fun _ => .nil⟩
  | cons f fs ih =>
    have hrest := isNameChar_accessTail haccess fs
    rw [toList_accessTail_cons] at h
    obtain ⟨more, rfl, hfront⟩ := h.eq_cons_of_reads (reads_access haccess _)
    obtain ⟨hfield, hnames⟩ := hnames
    obtain ⟨hneg, hfraction⟩ := FieldName.of_lexes hfront (hfield access haccess rfl) hrest
    have hreads : Reads f.token f.text.toList (accessTail access fs).toList :=
      FieldName.reads hneg hrest fun hnumber => readFraction_eq_of_nil (hfraction hnumber)
    obtain ⟨more, rfl, htail⟩ := hfront.eq_cons_of_reads hreads
    have hapart := ih htail hnames.2
    refine ⟨List.forall_mem_cons.2 ⟨hneg, hapart.nonneg⟩, fun hdot => ?_⟩
    refine List.isChain_cons.2 ⟨fun g hg hnumbers => ?_, hapart.apart hdot⟩
    have hnegative := (readFraction_accessTail haccess fs).1 (hfraction hnumbers.1) hdot g hg
    exact hapart.nonneg g (List.mem_of_mem_head? hg) (hnegative hnumbers.2)

end Reading

end Hashmark.Expression

namespace Hashmark

open Expression

/-- A chain stands for the tree of its fields, and for nothing if its fields are not read apart. -/
theorem parseExpr_accessChain_iff {access : Symbol} (haccess : IsAccess access) (v : VariableName)
    (fs : List FieldName) (e : Expr) : parseExpr (accessChain access v fs) = .ok e ↔
      ReadsApart access fs ∧ e = fieldTree v fs := by
  have hvariable := reads_variable v.chars.1 v.chars.2 (isNameChar_accessTail haccess fs)
  have htree (h : ReadsApart access fs) :
      parseExpr (accessChain access v fs) = .ok (fieldTree v fs) := by
    have hderives := derives_accessTokens haccess fs (.atom (t := .variable v.text) rfl)
    refine parseExpr_iff.2 ⟨_, ?_, hderives.loosen (Nat.le_refl _) (Nat.zero_le _)⟩
    rw [toList_accessChain]
    exact .of_reads hvariable (h.lexes haccess)
  constructor
  · intro h
    obtain ⟨ts, hlexes, hderives⟩ := parseExpr_iff.1 h
    rw [toList_accessChain] at hlexes
    obtain ⟨more, rfl, htail⟩ := hlexes.eq_cons_of_reads hvariable
    have hapart := ReadsApart.of_lexes haccess htail hderives.namesFields.2
    rw [htree hapart] at h
    cases h
    exact ⟨hapart, rfl⟩
  · rintro ⟨hapart, rfl⟩
    exact htree hapart

/-- **When a chain of fields is read.** With arrows between them, a variable and any fields stand for
the tree of the fields, unless one of them has a sign. With points in place of the arrows they stand
for the same tree exactly if, besides, no number follows another one. -/
theorem parseExpr_accessChain (v : VariableName) (fs : List FieldName) (e : Expr) :
    (parseExpr (accessChain .arrow v fs) = .ok e ↔
      (∀ f ∈ fs, ¬f.IsNegative) ∧ e = fieldTree v fs) ∧
    (parseExpr (accessChain .dot v fs) = .ok e ↔
      ((∀ f ∈ fs, ¬f.IsNegative) ∧ fs.IsChain fun f g => ¬(f.IsNumber ∧ g.IsNumber)) ∧
        e = fieldTree v fs) := by
  have harrow : ReadsApart .arrow fs ↔ ∀ f ∈ fs, ¬f.IsNegative :=
    ⟨fun h => h.nonneg, fun h => ⟨h, nofun⟩⟩
  have hdot : ReadsApart .dot fs ↔
      (∀ f ∈ fs, ¬f.IsNegative) ∧ fs.IsChain fun f g => ¬(f.IsNumber ∧ g.IsNumber) :=
    ⟨fun h => ⟨h.nonneg, h.apart rfl⟩, fun h => ⟨h.1, fun _ => h.2⟩⟩
  rw [parseExpr_accessChain_iff (.inr rfl), parseExpr_accessChain_iff (.inl rfl), harrow, hdot]
  exact ⟨Iff.rfl, Iff.rfl⟩

/-- Two numbers behind points are one decimal fraction, and behind arrows two fields. -/
theorem lost_number_field :
    let v : VariableName := ⟨"v", by simp, by simp [isNameChar]⟩
    let fs : List FieldName := [.number 0, .number 1]
    accessChain .dot v fs = "$v.0.1" ∧ accessChain .arrow v fs = "$v->0->1" ∧
      parseExpr "$v->0->1" = .ok (.field (.field (.var "v") "0") "1") ∧
      ∀ e, parseExpr "$v.0.1" ≠ .ok e := by
  intro v fs
  have hdot : accessChain .dot v fs = "$v.0.1" := by cbv
  refine ⟨hdot, by cbv, by cbv, fun e h => ?_⟩
  rw [← hdot, parseExpr_accessChain_iff (.inl rfl)] at h
  have hapart := h.1.apart rfl
  exact (List.isChain_cons.1 hapart).1 _ rfl ⟨trivial, trivial⟩

end Hashmark
