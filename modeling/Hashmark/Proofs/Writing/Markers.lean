import Hashmark.Proofs.Parsing.Frames
import Hashmark.Proofs.Writing.Arguments

/-!
# Writing markers

The scanner and the builder as one machine: what they do with a piece of a source, whatever stands
around it (`Passes`). Literal text and each kind of marker are such pieces. Text that the scanner has
not yet handed over counts as handed over, so that pieces can be put one behind the other.
-/

namespace Hashmark

open Expression Builder
open Lexer (readMarker readDirective scanFrom flush bind_eq_ok)

/-! ### Literal text in the builder -/

namespace Builder

theorem Frame.pushText_append (f : Frame) (a b : String) :
    (f.pushText a).pushText b = f.pushText (a ++ b) := by
  by_cases ha : a = ""
  · subst ha
    simp [Frame.pushText]
  · by_cases hb : b = ""
    · subst hb
      simp [Frame.pushText]
    · obtain ⟨block, nodes⟩ := f
      cases nodes with
      | nil => simp [Frame.pushText, ha, hb]
      | cons n nodes => cases n <;> simp [Frame.pushText, ha, hb, String.append_assoc]

@[simp] theorem State.pushText_empty (s : State) : s.pushText "" = s := rfl

theorem State.pushText_append (s : State) (a b : String) :
    (s.pushText a).pushText b = s.pushText (a ++ b) := by
  simp only [State.pushText, Frame.pushText_append]

/-- Literal text that is not next to literal text is a node. -/
theorem State.pushText_eq_push {s : State} {content : String} (hne : content ≠ "")
    (h : ∀ t, s.top.nodes.head? ≠ some (.text t)) : s.pushText content = s.push (.text content) := by
  obtain ⟨⟨block, nodes⟩, below, layout⟩ := s
  simp only [State.pushText, State.push, Frame.pushText, Frame.push, hne, if_false]
  split
  · next before rest => exact absurd rfl (h before)
  · rfl

end Builder

/-! ### The scanner and the builder -/

section Passes

variable (language : Language) (source : Source)

/-- What the builder makes of the segments of a text; `literal` is the literal text right before it,
last character first. -/
def run (pos : Nat) (literal cs : List Char) (s : State) : Except TemplateError State := do
  let segments ← scanFrom language.directives source pos literal cs
  segments.foldlM (step source language) s

/-- Whether the text `cs` in front of `rest` takes the builder from one state to another. -/
def Passes (cs rest : List Char) (s s' : State) : Prop :=
  ∀ pos literal t, t.pushText (String.ofList literal.reverse) = s →
    ∃ pos' literal' t', t'.pushText (String.ofList literal'.reverse) = s' ∧
      run language source pos literal (cs ++ rest) t = run language source pos' literal' rest t'

variable {language source} {cs cs' rest : List Char} {s s' s'' : State}

theorem passes_nil : Passes language source [] rest s s :=
  fun pos literal t ht => ⟨pos, literal, t, ht, rfl⟩

theorem Passes.append (h : Passes language source cs (cs' ++ rest) s s')
    (h' : Passes language source cs' rest s' s'') :
    Passes language source (cs ++ cs') rest s s'' := by
  intro pos literal t ht
  obtain ⟨pos₁, literal₁, t₁, ht₁, hrun₁⟩ := h pos literal t ht
  obtain ⟨pos₂, literal₂, t₂, ht₂, hrun₂⟩ := h' pos₁ literal₁ t₁ ht₁
  exact ⟨pos₂, literal₂, t₂, ht₂, by rw [List.append_assoc, hrun₁, hrun₂]⟩

/-- Literal text is handed over in front of the next segment. -/
theorem foldlM_flush (literal : List Char) (segments : List Segment) (t : State) :
    (flush literal segments).foldlM (step source language) t =
      segments.foldlM (step source language) (t.pushText (String.ofList literal.reverse)) := by
  unfold flush
  split
  · next h =>
    rw [List.isEmpty_iff.1 h]
    rfl
  · rfl

/-- A text that is all read. -/
theorem Passes.run_eq (h : Passes language source cs [] s s') :
    run language source 0 [] cs s = .ok s' := by
  obtain ⟨pos, literal, t, ht, hrun⟩ := h 0 [] s rfl
  rw [List.append_nil] at hrun
  rw [hrun, run, scanFrom]
  show (flush literal []).foldlM (step source language) t = _
  rw [foldlM_flush, ht]
  rfl

/-! ### Literal text -/

/-- A character that starts no marker and no escape. -/
theorem passes_char {c : Char} (hc : c ≠ '#') (hescape : c = '\\' → rest.head? ≠ some '#') :
    Passes language source [c] rest s (s.pushText (String.ofList [c])) := by
  rintro pos literal t rfl
  refine ⟨pos + c.utf8Size, c :: literal, t, ?_, ?_⟩
  · rw [State.pushText_append, List.reverse_cons, String.ofList_append]
  · rw [run, List.singleton_append, scanFrom]
    · rfl
    · rintro tail hbackslash rfl
      exact hescape hbackslash rfl
    · exact hc

/-- An escaped `#`. -/
theorem passes_escape : Passes language source ['\\', '#'] rest s (s.pushText "#") := by
  rintro pos literal t rfl
  refine ⟨pos + 2, [], (t.pushText (String.ofList literal.reverse)).pushText "#", rfl, ?_⟩
  rw [run, List.cons_append, List.singleton_append, scanFrom]
  cases hscan : scanFrom language.directives source (pos + 2) [] rest with
  | error e =>
    rw [run, hscan]
    rfl
  | ok segments =>
    rw [run, hscan]
    show (flush literal (_ :: segments)).foldlM (step source language) t = _
    rw [foldlM_flush]
    rfl

/-- Literal text with each `#` escaped. -/
def escapedText (content : List Char) : List Char :=
  content.flatMap fun c => if c = '#' then ['\\', '#'] else [c]

/-- **Literal text is read back**, if it does not end with a backslash in front of a `#`. -/
theorem passes_text {content : List Char}
    (h : content.getLast? = some '\\' → rest.head? ≠ some '#') :
    Passes language source (escapedText content) rest s (s.pushText (String.ofList content)) := by
  induction content generalizing s with
  | nil => exact passes_nil
  | cons c content ih =>
    have hcontent : content.getLast? = some '\\' → rest.head? ≠ some '#' := by
      intro hlast
      refine h ?_
      cases content with
      | nil => cases hlast
      | cons c' content => rwa [List.getLast?_cons_cons]
    have hsplit : s.pushText (String.ofList (c :: content)) =
        (s.pushText (String.ofList [c])).pushText (String.ofList content) := by
      rw [State.pushText_append, ← String.ofList_append]
      rfl
    have hcons : escapedText (c :: content) =
        (if c = '#' then ['\\', '#'] else [c]) ++ escapedText content := rfl
    rw [hsplit, hcons]
    refine Passes.append ?_ (ih hcontent)
    by_cases hc : c = '#'
    · subst hc
      exact passes_escape
    · rw [if_neg hc]
      refine passes_char hc fun hbackslash => ?_
      cases content with
      | nil => exact h (by rw [hbackslash]; rfl)
      | cons c' content =>
        -- what is written of the next character does not start with a `#`
        by_cases hc' : c' = '#' <;> simp [escapedText, hc']

/-! ### Markers -/

/-- A marker is read, and taken by the builder whatever its place is. -/
theorem passes_marker (kind : MarkerKind) (args : Option (List Char))
    (hread : ∀ pos, ∃ name offset, readMarker language.directives source pos (cs ++ rest) =
      .ok (some ⟨kind, name, args, offset, rest⟩))
    (hmarker : ∀ m : Marker, m.kind = kind → m.args = args.map String.ofList →
      marker source language s m = .ok s') :
    Passes language source ('#' :: cs) rest s s' := by
  rintro pos literal t rfl
  obtain ⟨name, offset, hread⟩ := hread pos
  let r : Lexer.Reading := ⟨kind, name, args, offset, rest⟩
  let m := r.marker pos ('#' :: (cs ++ rest))
  refine ⟨m.stop, [], s', rfl, ?_⟩
  rw [run, List.cons_append, scanFrom]
  split
  case h_1 e he =>
    rw [hread] at he
    cases he
  case h_2 hnone =>
    rw [hread] at hnone
    cases hnone
  case h_3 r' hr =>
    rw [hread] at hr
    cases hr
    rw [run]
    show (scanFrom language.directives source m.stop [] rest >>= _) >>= _ = _
    cases hscan : scanFrom language.directives source m.stop [] rest with
    | error e => rfl
    | ok segments =>
      show (flush literal (.marker m :: segments)).foldlM (step source language) t = _
      rw [foldlM_flush, List.foldlM_cons]
      show marker source language (t.pushText (String.ofList literal.reverse)) m >>= _ = _
      rw [hmarker m rfl rfl]
      rfl

/-! ### Directives -/

/-- The kinds of directives that stand without arguments. -/
def MarkerKind.isBare : MarkerKind → Bool
  | .otherwise | .closing _ => true
  | _ => false

/-- The kinds of directives of which the arguments stand in parentheses. -/
def MarkerKind.takesArgs : MarkerKind → Bool
  | .opening _ | .elseIf | .yield | .connect => true
  | _ => false

/-- A directive without arguments. -/
def writtenName (name : String) : List Char :=
  '#' :: name.toList

/-- A directive with arguments in parentheses. -/
def writtenDirective (name : String) (args : List Char) : List Char :=
  '#' :: (name.toList ++ '(' :: (args ++ [')']))

variable {name : String} {kind : MarkerKind} {args : List Char}

/-- The name of a directive is read as far as it goes. -/
theorem readMarker_name {directives : Directives} (hname : isName name.toList = true)
    (hrest : ∀ c ∈ rest.head?, isNameChar c = false) (pos : Nat) :
    readMarker directives source pos (name.toList ++ rest) =
      readDirective directives source pos name.toList rest := by
  obtain ⟨c, cs, hcons, hstart, hchars⟩ := exists_cons_of_isName hname
  rw [hcons, List.cons_append]
  unfold readMarker
  split
  · next heq =>
    obtain rfl := (List.cons.inj heq).1
    exact absurd hstart (by decide)
  · next heq =>
    obtain rfl := (List.cons.inj heq).1
    exact absurd hstart (by decide)
  · next heq =>
    obtain ⟨rfl, rfl⟩ := List.cons.inj heq
    rw [if_pos hstart, takeWhile_front hchars hrest, dropWhile_front hchars hrest]
  · next heq => cases heq

theorem readDirective_args {directives : Directives} (hkind : Lexer.kindOf name = kind)
    (htakes : kind.takesArgs = true) (hargs : Bracketed args) (pos : Nat) :
    readDirective directives source pos name.toList ('(' :: (args ++ ')' :: rest)) =
      .ok (some ⟨kind, name.toList, some args, 1 + name.toList.length + 1, rest⟩) := by
  have hread : ∀ openAt, Lexer.readBracketed source pos openAt '(' ')'
      ('(' :: (args ++ ')' :: rest)) = .ok (some (args, rest)) := by
    intro openAt
    simp [Lexer.readBracketed, readClosed_bracketed hargs (.inl ⟨rfl, rfl⟩) rest]
  have hgap : Lexer.isInlineBlank '(' = false := rfl
  unfold readDirective
  dsimp only
  rw [String.ofList_toList, hkind]
  cases kind with
  | opening block => cases block <;> simp [hgap, hread, bind, Except.bind, pure, Except.pure]
  | elseIf | yield | connect => simp [hgap, hread, bind, Except.bind, pure, Except.pure]
  | _ => cases htakes

/-- A directive with its arguments is read, whatever follows. -/
theorem readMarker_directive {directives : Directives} (hname : isName name.toList = true)
    (hkind : Lexer.kindOf name = kind) (htakes : kind.takesArgs = true) (hargs : Bracketed args)
    (pos : Nat) :
    readMarker directives source pos (name.toList ++ '(' :: (args ++ ')' :: rest)) =
      .ok (some ⟨kind, name.toList, some args, 1 + name.toList.length + 1, rest⟩) := by
  rw [readMarker_name hname, readDirective_args hkind htakes hargs]
  rintro _ ⟨⟩
  rfl

/-- An expression between the brackets of its marker is read, whatever follows. -/
theorem readMarker_expression {directives : Directives} (hargs : Bracketed args)
    (hblank : (Text.trimChars args).isEmpty = false) (pos : Nat) :
    readMarker directives source pos ('[' :: (args ++ ']' :: rest)) =
      .ok (some ⟨.expression, [], some args, 2, rest⟩) := by
  simp only [readMarker, readClosed_bracketed hargs (.inr ⟨rfl, rfl⟩) rest, hblank]
  rfl

/-- **A directive with arguments.** -/
theorem passes_directive (hname : isName name.toList = true) (hkind : Lexer.kindOf name = kind)
    (htakes : kind.takesArgs = true) (hargs : Bracketed args)
    (hmarker : ∀ m : Marker, m.kind = kind → m.argText = String.ofList args →
      marker source language s m = .ok s') :
    Passes language source (writtenDirective name args) rest s s' := by
  refine passes_marker kind (some args) (fun pos => ?_) fun m hm hmargs => ?_
  · refine ⟨name.toList, 1 + name.toList.length + 1, ?_⟩
    rw [List.append_assoc, List.cons_append, List.append_assoc, List.singleton_append,
      readMarker_directive hname hkind htakes hargs]
  · refine hmarker m hm ?_
    rw [Marker.argText, hmargs]
    rfl

/-- **A directive without arguments**, in front of what is no part of its name. -/
theorem passes_name (hname : isName name.toList = true) (hkind : Lexer.kindOf name = kind)
    (hbare : kind.isBare = true) (hrest : ∀ c ∈ rest.head?, isNameChar c = false)
    (hmarker : ∀ m : Marker, m.kind = kind → marker source language s m = .ok s') :
    Passes language source (writtenName name) rest s s' := by
  refine passes_marker kind none (fun pos => ?_) fun m hm _ => hmarker m hm
  rw [readMarker_name hname hrest]
  unfold readDirective
  dsimp only
  rw [String.ofList_toList, hkind]
  cases kind with
  | otherwise => exact ⟨_, _, rfl⟩
  | closing block => exact ⟨_, _, rfl⟩
  | _ => cases hbare

/-! ### Nodes that are one marker -/

/-- **An expression.** -/
theorem passes_emit {e : Expr} (he : e.Writable language.callables) :
    Passes language source ('#' :: '[' :: (e.written ++ [']'])) rest s (s.push (.emit e)) := by
  have hblank : (Text.trimChars e.written).isEmpty = false := by
    simpa using isEmpty_trimChars_of_parseExpr he.parseExpr_written
  refine passes_marker .expression (some e.written) (fun pos => ⟨[], 2, ?_⟩) fun m hkind hargs => ?_
  · rw [List.cons_append, List.append_assoc, List.singleton_append,
      readMarker_expression he.bracketed hblank]
  · have hread : readExpr source language.callables m .expression m.argText = .ok e := by
      refine readExpr_argText he .expression ?_
      rw [Marker.argText, hargs]
      rfl
    simp only [marker, hkind, hread]
    rfl

/-- A text is cut at the end of a comment, if there is none in it. -/
theorem cut_comment {content : List Char} (h : ¬['-', '-', '#'] <:+: content) (rest : List Char) :
    Text.cut ['-', '-', '#'] (content ++ '-' :: '-' :: '#' :: rest) = some (content, rest) := by
  induction content with
  | nil => simp [Text.cut, Text.dropStart?]
  | cons c content ih =>
    have hcontent : ¬['-', '-', '#'] <:+: content := fun hends =>
      h (hends.trans (List.suffix_cons c content).isInfix)
    have hnone : Text.dropStart? ['-', '-', '#'] (c :: (content ++ '-' :: '-' :: '#' :: rest)) =
        none := by
      -- the end would lie in the comment, or a `-` would be its `#`
      by_contra hsome
      obtain ⟨tail, htail⟩ := Option.ne_none_iff_exists'.1 hsome
      have heq := Text.eq_append_of_dropStart? htail
      obtain _ | ⟨d, _ | ⟨e, content⟩⟩ := content
      · simp at heq
      · simp at heq
      · simp only [List.cons_append, List.cons.injEq] at heq
        obtain ⟨rfl, rfl, rfl, -⟩ := heq
        exact h ⟨[], content, rfl⟩
    rw [List.cons_append, Text.cut, hnone, ih hcontent]
    rfl

/-- **A comment**, if its end does not stand in it. -/
theorem passes_comment {content : String} (h : ¬['-', '-', '#'] <:+: content.toList) :
    Passes language source ('#' :: '-' :: '-' :: (content.toList ++ ['-', '-', '#'])) rest s
      (s.push (.comment content)) := by
  refine passes_marker .comment (some content.toList) (fun pos => ⟨[], 3, ?_⟩)
    fun m hkind hargs => ?_
  · rw [List.cons_append, List.cons_append, List.append_assoc]
    simp only [readMarker, List.cons_append, List.nil_append, cut_comment h rest]
  · have htext : m.argText = content := by
      rw [Marker.argText, hargs]
      exact String.ofList_toList
    simp only [marker, hkind, htext]
    rfl

/-- **A text in place of other templates' parts.** -/
theorem passes_yield (name : String) (default : Option String) :
    Passes language source (writtenDirective "yield" (writtenTexts (name :: default.toList))) rest s
      (s.push (.yield name default)) := by
  refine passes_directive (by decide) rfl rfl (bracketed_writtenTexts _) fun m hkind hargs => ?_
  have hread : textArgs source m 1 2 = .ok (name :: default.toList) := by
    refine textArgs_written (List.cons_ne_nil _ _) ?_ ?_ hargs <;> cases default <;> simp
  simp only [marker, hkind, hread]
  cases default <;> rfl

/-- **Another template.** -/
theorem passes_connect (name : String) :
    Passes language source (writtenDirective "connect" (writtenTexts [name])) rest s
      (s.push (.connect name)) := by
  refine passes_directive (by decide) rfl rfl (bracketed_writtenTexts _) fun m hkind hargs => ?_
  have hread : textArg source m = .ok name := textArg_written hargs
  simp only [marker, hkind, hread]
  rfl

end Passes

end Hashmark
