import Hashmark.Proofs.Storing.Decimals

/-!
# Reading JSON texts back

The text of a JSON value reads as that value again, apart from its numbers: a number reads as
whatever its text means, a whole number of 64 bits as itself (`reread_integer`), and a finite double
as some double (`exists_reread_real`). `Json.reread` is the value that is read, and `read?_text`
says so.
-/

namespace Hashmark

open Number (Written signChars ne_of_isDigit)

namespace Json

/-! ### Strings -/

/-- A code unit that is no surrogate stands for a character, whatever comes after it. -/
theorem joinPieces_codeUnit {n : Nat} (h : n < 0xD800) (pieces : List Piece) :
    joinPieces (.codeUnit n :: pieces) = (joinPieces pieces).map (Char.ofNat n :: ·) := by
  have hpair : ∀ low, ¬(0xD800 ≤ n ∧ n < 0xDC00 ∧ 0xDC00 ≤ low ∧ low < 0xE000) := by omega
  have hsingle : ¬(0xD800 ≤ n ∧ n < 0xE000) := by omega
  cases pieces with
  | nil => simp only [joinPieces, if_neg hsingle]
  | cons piece pieces =>
    cases piece with
    | char c => simp only [joinPieces, if_neg hsingle]
    | codeUnit low => rw [joinPieces, if_neg (hpair low), if_neg hsingle]

theorem codeUnit?_control : ∀ n < 32,
    codeUnit? '0' '0' (Nat.digitChar (n / 16)) (Nat.digitChar (n % 16)) = some n := by
  decide

/-- An escaped character is read as one piece, and that piece stands for the character. -/
theorem readPieces_escapedChar (c : Char) {cs rest : List Char} {pieces : List Piece}
    {text : List Char} (hread : readPieces cs = some (pieces, rest))
    (hjoin : joinPieces pieces = some text) :
    ∃ pieces', readPieces (escapedChar c ++ cs) = some (pieces', rest) ∧
      joinPieces pieces' = some (c :: text) := by
  have hchar : ∀ c, joinPieces (.char c :: pieces) = some (c :: text) := by
    intro c
    rw [joinPieces, hjoin]
    rfl
  unfold escapedChar
  split
  case h_8 hquote hslash _ _ _ _ _ =>
    split
    case isTrue hcontrol =>
      refine ⟨.codeUnit c.toNat :: pieces, ?_, ?_⟩
      · simp [readPieces, codeUnit?_control c.toNat hcontrol, hread]
      · rw [joinPieces_codeUnit (by omega), hjoin, Char.ofNat_toNat]
        rfl
    case isFalse hplain =>
      refine ⟨.char c :: pieces, ?_, hchar c⟩
      rw [List.singleton_append, readPieces]
      · simp [if_neg hplain, hread]
      · exact hquote
      · exact fun _ _ _ _ _ hc _ => hslash hc
      · exact fun _ _ hc _ => hslash hc
  all_goals exact ⟨_, by simp [readPieces, escape?, hread], hchar _⟩

theorem readPieces_quoted (cs rest : List Char) :
    ∃ pieces, readPieces (cs.flatMap escapedChar ++ '"' :: rest) = some (pieces, rest) ∧
      joinPieces pieces = some cs := by
  induction cs with
  | nil => exact ⟨[], by simp [readPieces], rfl⟩
  | cons c cs ih =>
    obtain ⟨pieces, hread, hjoin⟩ := ih
    rw [List.flatMap_cons, List.append_assoc]
    exact readPieces_escapedChar c hread hjoin

/-- **A quoted string is read back.** -/
theorem readString_quoted (s : String) (rest : List Char) :
    readString ((quoted s).tail ++ rest) = some (some s, rest) := by
  obtain ⟨pieces, hread, hjoin⟩ := readPieces_quoted s.toList rest
  have hchars : (quoted s).tail ++ rest = s.toList.flatMap escapedChar ++ '"' :: rest := by
    simp [quoted]
  rw [hchars, readString, hread]
  simp [hjoin]

/-! ### Numbers -/

/-- The characters that a value can start with, those of its first token. -/
def IsOpening (c : Char) : Prop :=
  isSpace c = false ∧ c ≠ ']' ∧ c ≠ '}'

theorem isOpening_of_isDigit {c : Char} (h : c.isDigit = true) : IsOpening c :=
  ⟨by simp [isSpace, ne_of_isDigit h (d := ' ') rfl, ne_of_isDigit h (d := '\t') rfl,
    ne_of_isDigit h (d := '\n') rfl, ne_of_isDigit h (d := '\r') rfl],
    ne_of_isDigit h rfl, ne_of_isDigit h rfl⟩

/-- The value of a numeral. -/
def valueOf (w : Written) (negative : Bool) : Json :=
  if w.tailChars = [] then ofWhole (w.numeral negative) else ofScaled (w.numeral negative)

theorem readValue_written (w : Written) (negative : Bool) {rest : List Char} (hrest : Ends rest)
    (fuel : Nat) :
    readValue (fuel + 1) (signChars negative ++ w.chars ++ rest) =
      some (valueOf w negative, rest) := by
  have hread : readNumber negative (w.chars ++ rest) = some (valueOf w negative, rest) :=
    readNumber_chars w negative hrest
  cases negative with
  | true => simpa [signChars, readValue] using hread
  | false =>
    obtain ⟨c, cs, hcons⟩ := List.exists_cons_of_ne_nil w.whole_ne_nil
    have hdigit : c.isDigit = true := w.whole_isDigit c (by rw [hcons]; exact List.mem_cons_self)
    have hchars : w.chars ++ rest = c :: (cs ++ w.tailChars ++ rest) := by
      rw [Written.chars, hcons]
      rfl
    show readValue (fuel + 1) (w.chars ++ rest) = _
    rw [hchars] at hread ⊢
    rw [readValue]
    · exact hread
    -- none of the other tokens starts with a digit
    all_goals exact fun _ heq => absurd (List.cons.inj heq).1 (ne_of_isDigit hdigit rfl)

/-- The spelling of a whole number, apart from its sign. -/
def wholeSpelling (n : Nat) : Written where
  whole := Nat.toDigits 10 n
  fraction := []
  power? := none
  whole_ne_nil := Nat.toDigits_ne_nil
  whole_isDigit := Number.isDigit_toDigits n
  whole_head h := by
    rcases Nat.eq_zero_or_pos n with rfl | hpos
    · rfl
    · exact absurd h (Number.head?_toDigits hpos)
  fraction_isDigit := by simp

theorem chars_integer (n : Int) :
    (JsonNumber.integer n).chars = signChars (n < 0) ++ (wholeSpelling n.natAbs).chars := by
  have hdigits : (wholeSpelling n.natAbs).chars = Nat.toDigits 10 n.natAbs := by
    simp [Written.chars, Written.tailChars, wholeSpelling]
  rw [hdigits]
  cases n with
  | ofNat n =>
    show (Nat.repr n).toList = _
    rw [Nat.toList_repr]
    rfl
  | negSucc n =>
    show ("-" ++ Nat.repr (n + 1)).toList = _
    rw [String.toList_append, Nat.toList_repr]
    simp [signChars, Int.negSucc_lt_zero]

theorem valueOf_wholeSpelling {n : Int} (hleast : -2 ^ 63 ≤ n) (hgreatest : n < 2 ^ 64) :
    valueOf (wholeSpelling n.natAbs) (n < 0) = ofInt n := by
  have hmagnitude : Number.foldDigits 0 (Number.digitsOf (wholeSpelling n.natAbs).whole) =
      n.natAbs := by
    rw [Number.foldDigits_digitsOf]
    exact Nat.ofDigitChars_ten_toDigits
  have hsize : UInt64.size = 2 ^ 64 := rfl
  have htail : (wholeSpelling n.natAbs).tailChars = [] := rfl
  rw [valueOf, if_pos htail, ofWhole]
  simp only [Written.numeral, hmagnitude, hsize]
  by_cases hneg : n < 0
  · have hrange : 0 < n.natAbs ∧ n.natAbs ≤ 2 ^ 64 / 2 := by omega
    have habs : -(n.natAbs : Int) = n := by omega
    rw [if_neg (by simp [hneg]), if_pos (by simpa only [hneg, decide_true, Bool.true_and,
      Bool.and_eq_true, decide_eq_true_eq] using hrange), habs]
  · have hrange : n.natAbs < 2 ^ 64 := by omega
    have habs : (n.natAbs : Int) = n := by omega
    rw [if_pos (by simpa only [hneg, decide_false, Bool.not_false, Bool.true_and,
      decide_eq_true_eq] using hrange), habs]

end Json

/-- What the text of a number reads as. -/
def JsonNumber.reread (n : JsonNumber) : Json :=
  (Json.read? (String.ofList n.chars)).getD .unreadable

namespace Json

/-- A number starts a value, and is read as one and the same value in front of anything. -/
theorem exists_readValue_number (n : JsonNumber) :
    (∃ c cs, n.chars = c :: cs ∧ IsOpening c) ∧
      ∃ value, ∀ rest, Ends rest → ∀ fuel,
        readValue (fuel + 1) (n.chars ++ rest) = some (value, rest) := by
  have hwritten : ∀ (negative : Bool) (w : Written),
      ∃ c cs, signChars negative ++ w.chars = c :: cs ∧ IsOpening c := by
    intro negative w
    cases negative with
    | true => exact ⟨'-', w.chars, rfl, by decide, by decide, by decide⟩
    | false =>
      obtain ⟨c, cs, hcons⟩ := List.exists_cons_of_ne_nil w.whole_ne_nil
      refine ⟨c, cs ++ w.tailChars, by rw [Written.chars, hcons]; rfl,
        isOpening_of_isDigit (w.whole_isDigit c ?_)⟩
      rw [hcons]
      exact List.mem_cons_self
  cases n with
  | integer n =>
    rw [chars_integer]
    exact ⟨hwritten _ _, _, fun rest hrest fuel => readValue_written _ _ hrest fuel⟩
  | real x =>
    cases hfinite : x.isFinite with
    | true =>
      obtain ⟨negative, w, hchars, -, -⟩ := Number.exists_written hfinite
      rw [hchars]
      exact ⟨hwritten _ _, _, fun rest hrest fuel => readValue_written _ _ hrest fuel⟩
    | false =>
      have hchars : (JsonNumber.real x).chars = ['n', 'u', 'l', 'l'] := by
        simp [JsonNumber.chars, Number.Layout.text?, Number.ofFloat?_eq_none hfinite]
      rw [hchars]
      exact ⟨⟨'n', ['u', 'l', 'l'], rfl, by decide, by decide, by decide⟩, .null,
        fun rest _ fuel => by simp [readValue, readWord]⟩

theorem skipSpace_cons {c : Char} (h : isSpace c = false) (cs : List Char) :
    skipSpace (c :: cs) = c :: cs := by
  simp [skipSpace, h]

theorem reread_eq {n : JsonNumber} {value : Json}
    (h : ∀ rest, Ends rest → ∀ fuel,
      readValue (fuel + 1) (n.chars ++ rest) = some (value, rest)) : n.reread = value := by
  obtain ⟨⟨c, cs, hcons, hopening⟩, -⟩ := exists_readValue_number n
  have hspace : skipSpace n.chars = n.chars := by
    rw [hcons]
    exact skipSpace_cons hopening.1 cs
  have hread := h [] (by simp [Ends]) (2 * n.chars.length + 1)
  rw [List.append_nil] at hread
  simp only [JsonNumber.reread, read?, String.toList_ofList, hspace]
  rw [hread]
  rfl

theorem readValue_number (n : JsonNumber) {rest : List Char} (hrest : Ends rest) (fuel : Nat) :
    readValue (fuel + 1) (n.chars ++ rest) = some (n.reread, rest) := by
  obtain ⟨-, value, hvalue⟩ := exists_readValue_number n
  rw [reread_eq hvalue]
  exact hvalue rest hrest fuel

/-- A whole number of 64 bits reads as itself. -/
theorem reread_integer {n : Int} (hleast : -2 ^ 63 ≤ n) (hgreatest : n < 2 ^ 64) :
    (JsonNumber.integer n).reread = ofInt n := by
  refine reread_eq fun rest hrest fuel => ?_
  rw [chars_integer, readValue_written _ _ hrest, valueOf_wholeSpelling hleast hgreatest]

/-- A finite double reads as a double. -/
theorem exists_reread_real {x : Float} (h : x.isFinite = true) :
    ∃ y, (JsonNumber.real x).reread = .number (.real y) := by
  obtain ⟨negative, w, hchars, htail, hscaled⟩ := Number.exists_written h
  obtain ⟨y, hy⟩ := Option.isSome_iff_exists.1 hscaled
  refine ⟨y, reread_eq fun rest hrest fuel => ?_⟩
  rw [hchars, readValue_written _ _ hrest, valueOf, if_neg htail, ofScaled, hy]

/-! ### Values -/

mutual

/-- What the text of a value reads as. -/
def reread : Json → Json
  | .null | .unreadable => .null
  | .bool b => .bool b
  | .number n => n.reread
  | .string s => .string s
  | .array items => .array (rereadItems items)
  | .object members => .object (rereadMembers members)

/-- What the texts of several values read as. -/
def rereadItems : List Json → List Json
  | [] => []
  | item :: items => item.reread :: rereadItems items

/-- What the texts of members read as. -/
def rereadMembers : List (String × Json) → List (String × Json)
  | [] => []
  | (name, value) :: members => (name, value.reread) :: rereadMembers members

end

theorem quoted_eq (s : String) : quoted s = '"' :: (quoted s).tail := rfl

theorem exists_chars_cons (j : Json) : ∃ c cs, j.chars = c :: cs ∧ IsOpening c := by
  cases j with
  | null => exact ⟨'n', ['u', 'l', 'l'], by simp [chars], by decide, by decide, by decide⟩
  | unreadable => exact ⟨'n', ['u', 'l', 'l'], by simp [chars], by decide, by decide, by decide⟩
  | bool b =>
    cases b with
    | true => exact ⟨'t', ['r', 'u', 'e'], by simp [chars], by decide, by decide, by decide⟩
    | false => exact ⟨'f', ['a', 'l', 's', 'e'], by simp [chars], by decide, by decide, by decide⟩
  | number n => simpa only [chars] using (exists_readValue_number n).1
  | string s => exact ⟨'"', _, by rw [chars, quoted_eq], by decide, by decide, by decide⟩
  | array items => exact ⟨'[', _, by rw [chars], by decide, by decide, by decide⟩
  | object members => exact ⟨'{', _, by rw [chars], by decide, by decide, by decide⟩

/-- The texts of some items, at least one, start like a value. -/
theorem exists_itemChars_cons (item : Json) (items : List Json) :
    ∃ c cs, itemChars (item :: items) = c :: cs ∧ IsOpening c := by
  obtain ⟨c, cs, hchars, hopening⟩ := exists_chars_cons item
  cases items with
  | nil => exact ⟨c, cs, by rw [itemChars, hchars], hopening⟩
  | cons next items => exact ⟨c, _, by rw [itemChars, hchars, List.cons_append], hopening⟩

/-- The texts of some members, at least one, start with a quote. -/
theorem exists_memberChars_cons (member : String × Json) (members : List (String × Json)) :
    ∃ cs, memberChars (member :: members) = '"' :: cs := by
  obtain ⟨name, value⟩ := member
  cases members with
  | nil => exact ⟨_, by rw [memberChars, quoted_eq, List.cons_append]⟩
  | cons next members => exact ⟨_, by rw [memberChars, quoted_eq, List.cons_append]⟩

/-- No value is written as an empty text. -/
theorem length_chars_pos (j : Json) : 0 < j.chars.length := by
  obtain ⟨c, cs, hcons, -⟩ := exists_chars_cons j
  rw [hcons]
  exact Nat.succ_pos _

theorem ends_comma (rest : List Char) : Ends (',' :: rest) := by simp [Ends]

theorem ends_bracket (rest : List Char) : Ends (']' :: rest) := by simp [Ends]

theorem ends_brace (rest : List Char) : Ends ('}' :: rest) := by simp [Ends]

mutual

/-- **A value is read back** in front of anything that may follow it. -/
theorem readValue_chars : ∀ (j : Json) (fuel : Nat) (rest : List Char),
    2 * j.chars.length ≤ fuel → Ends rest →
      readValue fuel (j.chars ++ rest) = some (j.reread, rest)
  | j, 0, rest => by
    intro hfuel _
    have := length_chars_pos j
    omega
  | .null, fuel + 1, rest => by
    intro _ _
    simp [chars, readValue, readWord, reread]
  | .unreadable, fuel + 1, rest => by
    intro _ _
    simp [chars, readValue, readWord, reread]
  | .bool b, fuel + 1, rest => by
    intro _ _
    cases b <;> simp [chars, readValue, readWord, reread]
  | .number n, fuel + 1, rest => by
    intro _ hrest
    rw [chars, reread]
    exact readValue_number n hrest fuel
  | .string s, fuel + 1, rest => by
    intro _ _
    rw [chars, quoted_eq, List.cons_append, readValue, readString_quoted, reread]
    rfl
  | .array items, fuel + 1, rest => by
    -- the items start with no blank and no closing bracket, so the array is not taken as empty
    intro hfuel _
    rw [chars, reread, List.cons_append, readValue, List.append_assoc]
    cases items with
    | nil => simp [itemChars, skipSpace_cons, isSpace, rereadItems]
    | cons item items =>
      have hitems := readItems_chars (item :: items) fuel rest (by simp) (by
        simp [chars] at hfuel
        omega)
      obtain ⟨c, cs, hcons, hspace, hbracket, -⟩ := exists_itemChars_cons item items
      rw [hcons] at hitems ⊢
      simp only [List.cons_append, List.nil_append, skipSpace_cons hspace] at hitems ⊢
      split
      case h_1 heq => exact absurd (List.cons.inj heq).1 hbracket
      case h_2 =>
        rw [hitems]
        rfl
  | .object members, fuel + 1, rest => by
    intro hfuel _
    rw [chars, reread, List.cons_append, readValue, List.append_assoc]
    cases members with
    | nil => simp [memberChars, skipSpace_cons, isSpace, rereadMembers]
    | cons member members =>
      have hmembers := readMembers_chars (member :: members) fuel rest
        (by simp) (by
          simp [chars] at hfuel
          omega)
      obtain ⟨cs, hcons⟩ := exists_memberChars_cons member members
      rw [hcons] at hmembers ⊢
      have hspace : isSpace '"' = false := by decide
      simp only [List.cons_append, List.nil_append, skipSpace_cons hspace] at hmembers ⊢
      simp [hmembers]

/-- Items are read back up to the closing bracket. -/
theorem readItems_chars : ∀ (items : List Json) (fuel : Nat) (rest : List Char), items ≠ [] →
    2 * (itemChars items).length + 1 ≤ fuel →
      readItems fuel (itemChars items ++ ']' :: rest) = some (rereadItems items, rest)
  | [], _, _ => by
    intro h
    exact absurd rfl h
  | _, 0, _ => by
    intro _ hfuel
    omega
  | [item], fuel + 1, rest => by
    intro _ hfuel
    rw [itemChars] at hfuel ⊢
    have hitem := readValue_chars item fuel _ (by omega) (ends_bracket rest)
    have hspace : isSpace ']' = false := by decide
    rw [readItems, hitem]
    simp [skipSpace_cons hspace, rereadItems]
  | item :: next :: items, fuel + 1, rest => by
    intro _ hfuel
    rw [itemChars] at hfuel ⊢
    simp only [List.length_append, List.length_cons] at hfuel
    rw [List.append_assoc, List.cons_append]
    have hitem := readValue_chars item fuel _ (by omega)
      (ends_comma (itemChars (next :: items) ++ ']' :: rest))
    have hitems := readItems_chars (next :: items) fuel rest (by simp)
      (by omega)
    obtain ⟨c, cs, hcons, hspace, -⟩ := exists_itemChars_cons next items
    have hcomma : isSpace ',' = false := by decide
    rw [readItems, hitem]
    rw [hcons] at hitems ⊢
    simp [skipSpace_cons hcomma, skipSpace_cons hspace, rereadItems] at hitems ⊢
    simp [hitems]

/-- Members are read back up to the closing brace. -/
theorem readMembers_chars : ∀ (members : List (String × Json)) (fuel : Nat) (rest : List Char),
    members ≠ [] → 2 * (memberChars members).length + 1 ≤ fuel →
      readMembers fuel (memberChars members ++ '}' :: rest) =
        some (some (rereadMembers members), rest)
  | [], _, _ => by
    intro h
    exact absurd rfl h
  | _, 0, _ => by
    intro _ hfuel
    omega
  | [(name, value)], fuel + 1, rest => by
    intro _ hfuel
    rw [memberChars] at hfuel ⊢
    simp only [List.length_append, List.length_cons] at hfuel
    have hvalue := readValue_chars value fuel _ (by omega) (ends_brace rest)
    obtain ⟨c, cs, hcons, hspace, -⟩ := exists_chars_cons value
    have hcolon : isSpace ':' = false := by decide
    have hbrace : isSpace '}' = false := by decide
    rw [quoted_eq, List.cons_append, List.cons_append, readMembers, List.append_assoc,
      readString_quoted]
    rw [hcons] at hvalue ⊢
    simp only [List.cons_append, Option.bind_eq_bind, Option.bind_some,
      skipSpace_cons hcolon, skipSpace_cons hspace] at hvalue ⊢
    rw [hvalue]
    simp [skipSpace_cons hbrace, rereadMembers]
  | (name, value) :: next :: members, fuel + 1, rest => by
    intro _ hfuel
    rw [memberChars] at hfuel ⊢
    simp only [List.length_append, List.length_cons] at hfuel
    have hvalue := readValue_chars value fuel _ (by omega)
      (ends_comma (memberChars (next :: members) ++ '}' :: rest))
    have hmembers := readMembers_chars (next :: members) fuel rest (by simp)
      (by omega)
    obtain ⟨c, cs, hcons, hspace, -⟩ := exists_chars_cons value
    obtain ⟨next', hnext⟩ := exists_memberChars_cons next members
    have hcolon : isSpace ':' = false := by decide
    have hcomma : isSpace ',' = false := by decide
    have hquote : isSpace '"' = false := by decide
    rw [quoted_eq, List.cons_append, List.cons_append, readMembers, List.append_assoc,
      readString_quoted]
    rw [hcons, hnext] at hvalue
    rw [hnext] at hmembers
    rw [hcons, hnext]
    simp only [List.cons_append, List.append_assoc, Option.bind_eq_bind, Option.bind_some,
      skipSpace_cons hcolon, skipSpace_cons hspace] at hvalue hmembers ⊢
    rw [hvalue]
    simp only [Option.bind_some, skipSpace_cons hcomma, skipSpace_cons hquote]
    rw [hmembers]
    simp [rereadMembers]

end

/-- **The text of a value** reads as `reread` says. -/
theorem read?_text (j : Json) : read? j.text = some j.reread := by
  obtain ⟨c, cs, hcons, hspace, -⟩ := exists_chars_cons j
  have hskip : skipSpace j.chars = j.chars := by
    rw [hcons]
    exact skipSpace_cons hspace cs
  have hread := readValue_chars j (2 * j.chars.length + 2) [] (by omega)
    (by simp [Ends])
  rw [List.append_nil] at hread
  simp only [read?, text, String.toList_ofList, hskip]
  rw [hread]
  rfl

end Json

end Hashmark
