import Hashmark.Directive
import Hashmark.Marker.Basic
import Hashmark.Text.Blank
import Hashmark.Text.Cut

/-!
# Finding the markers of a source

`scanFrom` splits a text into literal text and markers. A `#` that starts no marker is literal
text: so `#fff` and `#top` need no escape unless a directive of that name is registered. What is
left after a marker is a suffix of the text (`readMarker_suffix`), so the scan ends.
-/

namespace Hashmark

open Expression (isNameStart isNameChar)

namespace Lexer

/-- A marker without its place: `argsOffset` counts the bytes from its start to its arguments, and
`rest` is the text after it. -/
structure Reading where
  kind : MarkerKind
  name : List Char
  args : Option (List Char)
  argsOffset : Nat
  rest : List Char

/-- The text up to the bracket that closes an open one, and the text after that bracket. Brackets
of the same kind nest; brackets in quotes do not count, and in quotes a backslash takes away the
meaning of the next character. -/
def readClosed (opener closer : Char) (depth : Nat) (quote : Option Char) :
    List Char → Option (List Char × List Char)
  | [] => none
  | c :: cs =>
    match quote with
    | some q =>
      if c = '\\' then
        match cs with
        | [] => none
        | e :: cs => (readClosed opener closer depth quote cs).map fun (inner, rest) =>
            (c :: e :: inner, rest)
      else
        (readClosed opener closer depth (if c = q then none else quote) cs).map
          fun (inner, rest) => (c :: inner, rest)
    | none =>
      if c = '\'' ∨ c = '"' then
        (readClosed opener closer depth (some c) cs).map fun (inner, rest) => (c :: inner, rest)
      else if c = opener then
        (readClosed opener closer (depth + 1) none cs).map fun (inner, rest) => (c :: inner, rest)
      else if c = closer then
        match depth with
        | 0 => some ([], cs)
        | depth + 1 =>
          (readClosed opener closer depth none cs).map fun (inner, rest) => (c :: inner, rest)
      else
        (readClosed opener closer depth none cs).map fun (inner, rest) => (c :: inner, rest)

/-- What a directive is, by its name. -/
def kindOf (name : String) : MarkerKind :=
  match name with
  | "if" => .opening .choice
  | "elseif" => .elseIf
  | "else" => .otherwise
  | "endif" => .closing .choice
  | "foreach" => .opening .loop
  | "endforeach" => .closing .loop
  | "extends" => .extending
  | "section" => .opening .part
  | "endsection" => .closing .part
  | "yield" => .yield
  | "connect" => .connect
  | _ => .custom

/-- The blanks that may stand before the bracket of a directive. -/
def isInlineBlank (c : Char) : Bool :=
  c == ' ' || c == '\t'

/-- The characters of a section's name that is written without parentheses. -/
def isBareNameChar (c : Char) : Bool :=
  c.isAlphanum || c == '_' || c == '.' || c == '-'

/-- The bracketed text at the start of `cs`, if there is a bracket; `start` is the byte of the
marker and `openAt` the byte of the bracket. -/
def readBracketed (source : Source) (start openAt : Nat) (opener closer : Char)
    (cs : List Char) : Except TemplateError (Option (List Char × List Char)) :=
  match cs with
  | [] => .ok none
  | c :: body =>
    if c = opener then
      match readClosed opener closer 0 none body with
      | some (inner, rest) => .ok (some (inner, rest))
      | none => .error (source.malformed (.unclosedBracket opener) ⟨start, openAt + 1⟩)
    else .ok none

/-- A directive whose name has been read; `tail` is the text after the name. -/
def readDirective (directives : Directives) (source : Source) (start : Nat) (name : List Char)
    (tail : List Char) : Except TemplateError (Option Reading) := do
  let text := String.ofList name
  let kind := kindOf text
  let nameEnd := start + 1 + name.length
  let bare : Reading := ⟨kind, name, none, 1 + name.length, tail⟩
  let gap := (tail.takeWhile isInlineBlank).length
  let body := tail.dropWhile isInlineBlank
  let withArgs (skipped : Nat) (inner rest : List Char) : Reading :=
    ⟨kind, name, some inner, 1 + name.length + skipped, rest⟩
  match kind with
  | .otherwise | .closing _ => pure (some bare)
  | .extending =>
    let (opener, closer) := if body.head? = some '[' then ('[', ']') else ('(', ')')
    match ← readBracketed source start (nameEnd + gap) opener closer body with
    | some (inner, rest) => pure (some (withArgs (gap + 1) inner rest))
    | none => throw (source.malformed .missingLayout ⟨start, nameEnd⟩)
  | .opening .part =>
    match ← readBracketed source start (nameEnd + gap) '(' ')' body with
    | some (inner, rest) => pure (some (withArgs (gap + 1) inner rest))
    | none =>
      if (body.takeWhile isBareNameChar).isEmpty then
        throw (source.malformed .missingSectionName ⟨start, nameEnd⟩)
      else
        pure (some (withArgs gap (body.takeWhile isBareNameChar) (body.dropWhile isBareNameChar)))
  | .custom =>
    -- without a bracket right behind the name, only a registered name makes a directive
    match ← readBracketed source start nameEnd '(' ')' tail with
    | some (inner, rest) => pure (some (withArgs 1 inner rest))
    | none => pure (if Dict.contains directives text then some bare else none)
  | _ =>
    match ← readBracketed source start (nameEnd + gap) '(' ')' body with
    | some (inner, rest) => pure (some (withArgs (gap + 1) inner rest))
    | none => throw (source.malformed (.missingArgument text) ⟨start, nameEnd⟩)

/-- The marker that a `#` at byte `start` begins, if it begins one; `cs` is the text after it. -/
def readMarker (directives : Directives) (source : Source) (start : Nat) (cs : List Char) :
    Except TemplateError (Option Reading) :=
  match cs with
  | '[' :: body =>
    match readClosed '[' ']' 0 none body with
    | none => .error (source.malformed .unclosedMarker ⟨start, start + 2⟩)
    | some (inner, rest) =>
      if (Text.trimChars inner).isEmpty then
        .error (source.malformed .emptyMarker ⟨start, start + 3 + byteCount inner⟩)
      else .ok (some ⟨.expression, [], some inner, 2, rest⟩)
  | '-' :: '-' :: body =>
    match Text.cut ['-', '-', '#'] body with
    | none => .error (source.malformed .unclosedComment ⟨start, start + 3⟩)
    | some (inner, rest) => .ok (some ⟨.comment, [], some inner, 3, rest⟩)
  | c :: tail =>
    if isNameStart c then
      readDirective directives source start (c :: tail.takeWhile isNameChar)
        (tail.dropWhile isNameChar)
    else .ok none
  | [] => .ok none

/-! ### What is left is a suffix -/

theorem readClosed_suffix {opener closer : Char} {depth : Nat} {quote : Option Char}
    {cs inner rest : List Char}
    (h : readClosed opener closer depth quote cs = some (inner, rest)) : rest <:+ cs := by
  fun_induction readClosed opener closer depth quote cs generalizing inner with
  | case1 => cases h
  | case2 => cases h
  | case3 _ _ _ _ ih =>
    simp only [Option.map_eq_some_iff, Prod.exists] at h
    obtain ⟨inner', rest', h', heq⟩ := h
    cases heq
    exact (ih h').trans ((List.suffix_cons _ _).trans (List.suffix_cons _ _))
  | case7 => cases h; exact List.suffix_cons _ _
  | _ =>
    rename_i ih
    simp only [Option.map_eq_some_iff, Prod.exists] at h
    obtain ⟨inner', rest', h', heq⟩ := h
    cases heq
    exact (ih h').trans (List.suffix_cons _ _)

theorem readBracketed_suffix {source : Source} {start openAt : Nat} {opener closer : Char}
    {cs inner rest : List Char}
    (h : readBracketed source start openAt opener closer cs = .ok (some (inner, rest))) :
    rest <:+ cs := by
  unfold readBracketed at h
  split at h
  · cases h
  · split at h
    · split at h
      · next hc => cases h; exact (readClosed_suffix hc).trans (List.suffix_cons _ _)
      · cases h
    · cases h

theorem bind_eq_ok {ε α β : Type} {x : Except ε α} {f : α → Except ε β} {b : β} :
    (x >>= f) = .ok b ↔ ∃ a, x = .ok a ∧ f a = .ok b := by
  cases x <;> simp [bind, Except.bind]

theorem readDirective_suffix {directives : Directives} {source : Source} {start : Nat}
    {name tail : List Char} {r : Reading}
    (h : readDirective directives source start name tail = .ok (some r)) : r.rest <:+ tail := by
  have hbody : tail.dropWhile isInlineBlank <:+ tail := List.dropWhile_suffix _
  unfold readDirective at h
  simp only at h
  split at h
  · cases h; exact List.suffix_refl _
  · cases h; exact List.suffix_refl _
  · obtain ⟨x, hx, h⟩ := bind_eq_ok.1 h
    split at h
    · cases h; exact (readBracketed_suffix hx).trans hbody
    · cases h
  · obtain ⟨x, hx, h⟩ := bind_eq_ok.1 h
    split at h
    · cases h; exact (readBracketed_suffix hx).trans hbody
    · split at h
      · cases h
      · cases h; exact (List.dropWhile_suffix _).trans hbody
  · obtain ⟨x, hx, h⟩ := bind_eq_ok.1 h
    split at h
    · cases h; exact readBracketed_suffix hx
    · split at h <;> cases h
      exact List.suffix_refl _
  · obtain ⟨x, hx, h⟩ := bind_eq_ok.1 h
    split at h
    · cases h; exact (readBracketed_suffix hx).trans hbody
    · cases h

/-- What is left after a marker is a suffix of the text after its `#`. -/
theorem readMarker_suffix {directives : Directives} {source : Source} {start : Nat}
    {cs : List Char} {r : Reading}
    (h : readMarker directives source start cs = .ok (some r)) : r.rest <:+ cs := by
  unfold readMarker at h
  split at h
  · split at h
    · cases h
    · next hc =>
      split at h <;> cases h
      exact (readClosed_suffix hc).trans (List.suffix_cons _ _)
  · split at h
    · cases h
    · next inner rest hc =>
      cases h
      rw [Text.eq_append_of_cut hc]
      exact ⟨'-' :: '-' :: (inner ++ ['-', '-', '#']), by simp⟩
  · split at h
    · exact (readDirective_suffix h).trans ((List.dropWhile_suffix _).trans (List.suffix_cons _ _))
    · cases h
  · cases h

/-! ### The whole source -/

/-- Literal text in front of some segments; an empty text makes no segment. -/
def flush (literal : List Char) (segments : List Segment) : List Segment :=
  if literal.isEmpty then segments else .literal (String.ofList literal.reverse) :: segments

/-- The marker of a reading at byte `start`, where `cs` is the text from its `#` on. -/
def Reading.marker (r : Reading) (start : Nat) (cs : List Char) : Marker where
  kind := r.kind
  name := String.ofList r.name
  args := r.args.map String.ofList
  start := start
  argsStart := start + r.argsOffset
  lexeme := String.ofList (cs.take (cs.length - r.rest.length))

/-- The segments of a text that starts at byte `pos`; `literal` is the literal text right before
it, last character first. -/
def scanFrom (directives : Directives) (source : Source) (pos : Nat) (literal : List Char) :
    List Char → Except TemplateError (List Segment)
  | [] => .ok (flush literal [])
  | '\\' :: '#' :: rest => do
    let segments ← scanFrom directives source (pos + 2) [] rest
    pure (flush literal (.marker ⟨.escape, "", none, pos, pos + 2, "\\#"⟩ :: segments))
  | '#' :: tail =>
    match _h : readMarker directives source pos tail with
    | .error e => .error e
    | .ok none => scanFrom directives source (pos + 1) ('#' :: literal) tail
    | .ok (some r) => do
      let m := r.marker pos ('#' :: tail)
      let segments ← scanFrom directives source m.stop [] r.rest
      pure (flush literal (.marker m :: segments))
  | c :: rest => scanFrom directives source (pos + c.utf8Size) (c :: literal) rest
termination_by cs => cs.length
decreasing_by
  · simp only [List.length_cons]; omega
  · simp
  · have := (readMarker_suffix ‹_›).length_le
    simp only [List.length_cons]; omega
  · simp

end Lexer

/-- The segments of a source. Blocks need not be balanced. -/
def segments (directives : Directives) (source : Source) : Except TemplateError (List Segment) :=
  Lexer.scanFrom directives source 0 [] source.text.toList

end Hashmark
