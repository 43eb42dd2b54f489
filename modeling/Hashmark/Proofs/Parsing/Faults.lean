import Hashmark.Proofs.Parsing.Nesting
import Hashmark.Proofs.Parsing.Pieces

/-!
# Which step finds which fault

A source is scanned, checked for balance and built into a tree, and the arguments of its markers are
read on the way. Every fault belongs to one of these stages, or to the compiling that comes after
them, and no stage finds faults of another one. Scanning finds faults in the bytes that it passes
(`raises_segments`), and the later stages find faults of the markers that were scanned
(`raises_checkBalance`, `Builder.raises_build`). So the faults of a parsed source are never those of
compiling (`raises_parseTemplate`).
-/

namespace Hashmark

/-! ### Errors of a kind -/

/-- Whether something can end in errors of some kind only. -/
def Raises {α : Type} (Kind : TemplateError → Prop) (x : Except TemplateError α) : Prop :=
  ∀ e, x = .error e → Kind e

section Raises

variable {α β : Type} {Kind More : TemplateError → Prop} {x : Except TemplateError α}
  {f : α → Except TemplateError β}

theorem raises_ok (a : α) : Raises Kind (.ok a : Except TemplateError α) := by
  intro e he
  cases he

theorem raises_error {e : TemplateError} (h : Kind e) :
    Raises Kind (.error e : Except TemplateError α) := by
  rintro _ ⟨⟩
  exact h

theorem Raises.mono (h : Raises Kind x) (hmore : ∀ e, Kind e → More e) : Raises More x :=
  fun e he => hmore e (h e he)

theorem Raises.bind (hx : Raises Kind x) (hf : ∀ a, x = .ok a → Raises Kind (f a)) :
    Raises Kind (x >>= f) := by
  intro e he
  cases x with
  | error e' =>
    obtain rfl : e' = e := Except.error.inj he
    exact hx e' rfl
  | ok a => exact hf a rfl e he

theorem raises_mapError {ε : Type} {x : Except ε α} {f : ε → TemplateError}
    (hf : ∀ e, Kind (f e)) : Raises Kind (x.mapError f) := by
  cases x with
  | error e => exact raises_error (hf e)
  | ok a => exact raises_ok a

theorem raises_mapM {γ : Type} {f : γ → Except TemplateError α} (hf : ∀ c, Raises Kind (f c))
    (cs : List γ) : Raises Kind (cs.mapM f) := by
  induction cs with
  | nil => exact raises_ok []
  | cons c cs ih =>
    rw [List.mapM_cons]
    exact (hf c).bind fun _ _ => ih.bind fun _ _ => raises_ok _

theorem raises_foldlM {γ : Type} {f : α → γ → Except TemplateError α} {cs : List γ}
    (hf : ∀ a, ∀ c ∈ cs, Raises Kind (f a c)) (a : α) : Raises Kind (cs.foldlM f a) := by
  induction cs generalizing a with
  | nil => exact raises_ok a
  | cons c cs ih =>
    rw [List.foldlM_cons]
    exact (hf a c (List.mem_cons_self ..)).bind fun a' _ =>
      ih (fun a d hd => hf a d (List.mem_cons_of_mem _ hd)) a'

end Raises

/-! ### Stages -/

/-- The stages from a source to an artifact. -/
inductive Stage where
  | scanning
  | balancing
  | reading
  | building
  | compiling
  deriving DecidableEq, Repr

/-- The stage that finds a fault. -/
def SyntaxFault.stage : SyntaxFault → Stage
  | .unclosedMarker | .emptyMarker | .unclosedComment | .missingArgument _ | .missingLayout
  | .missingSectionName | .unclosedBracket _ => .scanning
  | .repeatedExtends _ | .lateExtends | .strayBranch _ | .crossedClosing _ _ _ | .strayClosing _
  | .unclosedBlock _ _ _ => .balancing
  | .invalidExpr _ _ | .loopHeader | .argumentCount _ _ _ | .unquotedArgument _
  | .superfluousArguments _ | .missingArguments _ | .handlerFailed _ _ => .reading
  | .branchAfterElse _ | .branchOutsideChoice | .closingWithoutOpening _
  | .closingOfOtherBlock _ => .building
  | .circularExtends _ | .circularConnect _ | .extendsInPartial => .compiling

/-- The stage that ends in an error, unless no text is at fault. -/
def TemplateError.stage? : TemplateError → Option Stage
  | .malformed fault _ => some fault.stage
  | .unknownDirective _ _ _ | .unknownFilter _ _ _ | .unknownFunction _ _ _
  | .blocked _ _ => some .reading
  | .notFound _ _ | .failedCall _ _ _ | .unreadable _ => none

/-- Whether an error is one of some stages. -/
def TemplateError.Of (stages : List Stage) (e : TemplateError) : Prop :=
  ∃ stage ∈ stages, e.stage? = some stage

/-- An error of scanning, about some of the first `stop` bytes of a source. -/
def ScanError (source : Source) (stop : Nat) (e : TemplateError) : Prop :=
  ∃ fault span, e = source.malformed fault span ∧ fault.stage = .scanning ∧ span.start ≤ stop ∧
    span.stop ≤ stop

/-- An error of a stage about a marker: it is about all of it, about an expression in its arguments
or about a callee. -/
inductive MarkerError (source : Source) (m : Marker) : Stage → TemplateError → Prop
  | fault (fault : SyntaxFault) : MarkerError source m fault.stage (source.malformed fault m.span)
  | unknownDirective (known : List String) :
    MarkerError source m .reading (.unknownDirective m.name known (source.place m.span))
  | expr (role : ExprRole) (e : Expression.ExprError) :
    MarkerError source m .reading (Builder.exprError source m role e)
  | violation (callables : Callables) (v : Violation) :
    MarkerError source m .reading (Builder.violationError source callables m v)

/-- An error of one of some stages about one of some markers. -/
def MarkersError (source : Source) (markers : List Marker) (stages : List Stage)
    (e : TemplateError) : Prop :=
  ∃ m ∈ markers, ∃ stage ∈ stages, MarkerError source m stage e

section Errors

variable {source : Source} {m : Marker} {stage : Stage} {e : TemplateError}

theorem ScanError.stage? {stop : Nat} (h : ScanError source stop e) :
    e.stage? = some .scanning := by
  obtain ⟨fault, span, rfl, hstage, -⟩ := h
  exact congrArg some hstage

theorem ScanError.mono {stop more : Nat} (h : ScanError source stop e) (hle : stop ≤ more) :
    ScanError source more e := by
  obtain ⟨fault, span, he, hstage, hstart, hstop⟩ := h
  exact ⟨fault, span, he, hstage, hstart.trans hle, hstop.trans hle⟩

theorem raises_scanError {α : Type} {stop : Nat} {fault : SyntaxFault} {span : Span}
    (hstage : fault.stage = .scanning) (hstart : span.start ≤ stop) (hstop : span.stop ≤ stop) :
    Raises (ScanError source stop) (.error (source.malformed fault span) : Except TemplateError α) :=
  raises_error ⟨fault, span, rfl, hstage, hstart, hstop⟩

theorem MarkerError.stage? (h : MarkerError source m stage e) : e.stage? = some stage := by
  cases h with
  | fault fault => rfl
  | unknownDirective known => rfl
  | expr role e => rfl
  | violation callables v => cases v <;> rfl

/-- A fault of a marker as a whole. -/
theorem raises_fault {α : Type} (fault : SyntaxFault) (hstage : fault.stage = stage) :
    Raises (MarkerError source m stage)
      (.error (source.malformed fault m.span) : Except TemplateError α) :=
  raises_error (hstage ▸ .fault fault)

theorem MarkersError.of {markers : List Marker} {stages : List Stage}
    (h : MarkersError source markers stages e) : e.Of stages := by
  obtain ⟨m, -, stage, hstage, h⟩ := h
  exact ⟨stage, hstage, h.stage?⟩

theorem MarkersError.mono {markers : List Marker} {stages more : List Stage}
    (h : MarkersError source markers stages e) (hsub : stages ⊆ more) :
    MarkersError source markers more e := by
  obtain ⟨m, hm, stage, hstage, h⟩ := h
  exact ⟨m, hm, stage, hsub hstage, h⟩

end Errors

/-! ### Scanning -/

namespace Lexer

variable {directives : Directives} {source : Source} {start : Nat}

theorem length_le_byteCount (cs : List Char) : cs.length ≤ byteCount cs := by
  induction cs with
  | nil => exact Nat.le_refl 0
  | cons c cs ih =>
    have hpos := c.utf8Size_pos
    rw [List.length_cons, byteCount_cons]
    omega

/-- The bytes of a text are those of its front and of what is behind it. -/
theorem byteCount_takeWhile (p : Char → Bool) (cs : List Char) :
    byteCount (cs.takeWhile p) + byteCount (cs.dropWhile p) = byteCount cs := by
  rw [← byteCount_append, List.takeWhile_append_dropWhile]

theorem raises_readBracketed {openAt : Nat} (hopen : start ≤ openAt) (opener closer : Char)
    (cs : List Char) :
    Raises (ScanError source (openAt + byteCount cs))
      (readBracketed source start openAt opener closer cs) := by
  unfold readBracketed
  split
  · exact raises_ok _
  · next c body =>
    have hpos := c.utf8Size_pos
    rw [byteCount_cons]
    split
    · split
      · exact raises_ok _
      · exact raises_scanError rfl (by dsimp only; omega) (by dsimp only; omega)
    · exact raises_ok _

theorem raises_readDirective (name tail : List Char) :
    Raises (ScanError source (start + 1 + name.length + byteCount tail))
      (readDirective directives source start name tail) := by
  have hgap := length_le_byteCount (tail.takeWhile isInlineBlank)
  have hbody := byteCount_takeWhile isInlineBlank tail
  -- the brackets of all but unknown directives may stand behind blanks
  have hbracket (opener closer : Char) :
      Raises (ScanError source (start + 1 + name.length + byteCount tail))
        (readBracketed source start
          (start + 1 + name.length + (tail.takeWhile isInlineBlank).length) opener closer
          (tail.dropWhile isInlineBlank)) :=
    (raises_readBracketed (by omega) opener closer _).mono fun _ he => he.mono (by omega)
  have hmissing {α : Type} {fault : SyntaxFault} (hstage : fault.stage = .scanning) :
      Raises (ScanError source (start + 1 + name.length + byteCount tail))
        (.error (source.malformed fault ⟨start, start + 1 + name.length⟩) :
          Except TemplateError α) :=
    raises_scanError hstage (by dsimp only; omega) (by dsimp only; omega)
  unfold readDirective
  dsimp only
  split
  · exact raises_ok _
  · exact raises_ok _
  · refine (hbracket _ _).bind fun found _ => ?_
    split
    · exact raises_ok _
    · exact hmissing rfl
  · refine (hbracket _ _).bind fun found _ => ?_
    split
    · exact raises_ok _
    · split
      · exact hmissing rfl
      · exact raises_ok _
  · refine (raises_readBracketed (by omega) _ _ _).bind fun found _ => ?_
    split <;> exact raises_ok _
  · refine (hbracket _ _).bind fun found _ => ?_
    split
    · exact raises_ok _
    · exact hmissing rfl

theorem raises_readMarker (cs : List Char) :
    Raises (ScanError source (start + 1 + byteCount cs)) (readMarker directives source start cs) := by
  unfold readMarker
  split
  · next body =>
    have hbracket : byteCount ('[' :: body) = 1 + byteCount body := rfl
    split
    · exact raises_scanError rfl (by dsimp only; omega) (by dsimp only; omega)
    · next inner rest hclosed =>
      have hbody : byteCount body = byteCount inner + (1 + byteCount rest) := by
        rw [eq_append_of_readClosed hclosed, byteCount_append]
        rfl
      split
      · exact raises_scanError rfl (by dsimp only; omega) (by dsimp only; omega)
      · exact raises_ok _
  · next body =>
    have hdashes : byteCount ('-' :: '-' :: body) = 1 + (1 + byteCount body) := rfl
    split
    · exact raises_scanError rfl (by dsimp only; omega) (by dsimp only; omega)
    · exact raises_ok _
  · next c tail _ _ =>
    have hname := length_le_byteCount (c :: tail.takeWhile Expression.isNameChar)
    have htail := byteCount_takeWhile Expression.isNameChar tail
    rw [byteCount_cons] at hname ⊢
    split
    · exact (raises_readDirective _ _).mono fun _ he => he.mono (by omega)
    · exact raises_ok _
  · exact raises_ok _

/-- A marker and the text after it take the bytes of the text. -/
theorem stop_add_byteCount_rest {r : Reading} {cs : List Char} (h : r.rest <:+ cs) (pos : Nat) :
    (r.marker pos cs).stop + byteCount r.rest = pos + byteCount cs := by
  have hsplit := congrArg byteCount (List.suffix_iff_eq_append.1 h)
  rw [byteCount_append] at hsplit
  rw [Marker.stop, Reading.marker, utf8ByteSize_ofList]
  dsimp only
  omega

/-- **Scanning finds faults in the bytes that it passes.** -/
theorem raises_scanFrom (pos : Nat) (literal cs : List Char) :
    Raises (ScanError source (pos + byteCount cs))
      (scanFrom directives source pos literal cs) := by
  fun_induction scanFrom directives source pos literal cs with
  | case1 => exact raises_ok _
  | case2 pos literal rest ih =>
    have hescape : byteCount ('\\' :: '#' :: rest) = 1 + (1 + byteCount rest) := rfl
    exact (ih.mono fun _ he => he.mono (by omega)).bind fun _ _ => raises_ok _
  | case3 pos literal tail e hread =>
    have hhash : byteCount ('#' :: tail) = 1 + byteCount tail := rfl
    exact raises_error ((raises_readMarker tail e hread).mono (by omega))
  | case4 pos literal tail hread ih =>
    have hhash : byteCount ('#' :: tail) = 1 + byteCount tail := rfl
    exact ih.mono fun _ he => he.mono (by omega)
  | case5 pos literal tail r hread m ih =>
    have hrest := stop_add_byteCount_rest
      ((readMarker_suffix hread).trans (List.suffix_cons '#' tail)) pos
    exact (ih.mono fun _ he => he.mono hrest.le).bind fun _ _ => raises_ok _
  | case6 pos literal c rest _ _ ih =>
    rw [byteCount_cons, ← Nat.add_assoc]
    exact ih

end Lexer

theorem raises_segments (directives : Directives) (source : Source) :
    Raises (ScanError source source.size) (segments directives source) := by
  have hscan : Raises (ScanError source (0 + byteCount source.text.toList))
      (segments directives source) := Lexer.raises_scanFrom 0 [] source.text.toList
  rwa [Nat.zero_add, byteCount_toList] at hscan

/-! ### Balancing -/

theorem Balance.raises_step {source : Source} (s : Balance.State) (m : Marker) :
    Raises (MarkerError source m .balancing) (Balance.step source s m) := by
  unfold Balance.step
  split
  case h_3 =>
    split
    · exact raises_fault _ rfl
    · split
      · exact raises_fault _ rfl
      · exact raises_ok _
  case h_5 | h_6 =>
    split
    · exact raises_ok _
    · exact raises_fault _ rfl
  case h_7 =>
    split
    · exact raises_fault _ rfl
    · split
      · exact raises_ok _
      · exact raises_fault _ rfl
  all_goals exact raises_ok _

/-- The blocks that are open were open before or are opened by one of the markers. -/
theorem Balance.mem_opened_foldlM {source : Source} {markers : List Marker} {s s' : Balance.State}
    (h : markers.foldlM (Balance.step source) s = .ok s') :
    ∀ block ∈ s'.opened, block ∈ s.opened ∨ block.2 ∈ markers := by
  induction markers generalizing s with
  | nil =>
    cases h
    exact fun block hblock => .inl hblock
  | cons m markers ih =>
    obtain ⟨next, hnext, hrest⟩ := foldlM_cons_eq_ok.1 h
    intro block hblock
    rcases ih hrest block hblock with hblock | hmem
    · rcases step_eq_ok.1 hnext with ⟨-, rfl⟩ | ⟨-, rfl⟩ | ⟨-, -, rfl⟩ | ⟨b, -, rfl⟩ |
        ⟨b, first, rest, -, hopened, rfl⟩ | ⟨-, -, -, rfl⟩
      case inr.inr.inr.inl =>
        rcases List.mem_cons.1 hblock with rfl | hblock
        · exact .inr (List.mem_cons_self ..)
        · exact .inl hblock
      case inr.inr.inr.inr.inl => exact .inl (hopened ▸ List.mem_cons_of_mem _ hblock)
      all_goals exact .inl hblock
    · exact .inr (List.mem_cons_of_mem _ hmem)

theorem raises_checkBalance {source : Source} (markers : List Marker) :
    Raises (MarkersError source markers [.balancing]) (checkBalance source markers) := by
  have hstep (s : Balance.State) (m : Marker) (hm : m ∈ markers) :
      Raises (MarkersError source markers [.balancing]) (Balance.step source s m) :=
    (Balance.raises_step s m).mono fun _ he => ⟨m, hm, .balancing, List.mem_singleton_self _, he⟩
  refine (raises_foldlM hstep _).bind fun s hs => ?_
  split
  · exact raises_ok ()
  · next block m hlast =>
    rcases Balance.mem_opened_foldlM hs _ (List.mem_of_getLast? hlast) with hmem | hm
    · cases hmem
    · have hunclosed : MarkerError source m .balancing (Balance.unclosed source markers block m) :=
        .fault (.unclosedBlock block _ _)
      exact raises_error ⟨m, hm, .balancing, List.mem_singleton_self _, hunclosed⟩

/-! ### Reading and building -/

namespace Builder

variable {source : Source} {language : Language} {m : Marker}

theorem raises_readExpr (c : Callables) (role : ExprRole) (text : String) :
    Raises (MarkerError source m .reading) (readExpr source c m role text) := by
  refine (raises_mapError fun e => .expr role e).bind fun e _ => .bind ?_ fun _ _ => raises_ok e
  unfold checkExpr
  split
  · exact raises_ok ()
  · exact raises_error (.violation c _)

theorem raises_loopHeader (c : Callables) :
    Raises (MarkerError source m .reading) (loopHeader source c m) := by
  unfold loopHeader
  dsimp only
  split
  · exact raises_fault _ rfl
  · refine (raises_readExpr c _ _).bind fun e _ => ?_
    split
    · exact raises_ok _
    · exact raises_ok _
    · exact raises_fault _ rfl

theorem raises_textArgs (least most : Nat) :
    Raises (MarkerError source m .reading) (textArgs source m least most) := by
  refine (raises_mapError fun e => .expr .argument e).bind fun args _ => ?_
  dsimp only
  split
  · exact raises_fault (.argumentCount m.name least most) rfl
  · refine raises_mapM (fun arg => ?_) args
    split
    · exact raises_ok _
    · exact raises_fault _ rfl

theorem raises_textArg : Raises (MarkerError source m .reading) (textArg source m) :=
  (raises_textArgs 1 1).bind fun _ _ => raises_ok _

theorem raises_sectionName : Raises (MarkerError source m .reading) (sectionName source m) := by
  unfold sectionName
  dsimp only
  split
  · exact raises_textArg
  · exact raises_ok _

theorem raises_customNode :
    Raises (MarkerError source m .reading) (customNode source language m) := by
  unfold customNode
  split
  · exact raises_error (.unknownDirective _)
  · split
    · exact raises_fault _ rfl
    · exact raises_fault _ rfl
    · refine (raises_mapError fun message => ?_).bind fun n _ => ?_
      · exact .fault (.handlerFailed m.name message)
      · split
        · exact raises_ok n
        · exact raises_error (.violation _ _)

theorem raises_branch (s : State) (next : Option Expr) :
    Raises (MarkerError source m .building) (branch source s m next) := by
  unfold branch
  split
  · exact raises_ok _
  · exact raises_fault _ rfl
  · exact raises_fault _ rfl

theorem raises_close (s : State) (kind : BlockKind) :
    Raises (MarkerError source m .building) (close source s m kind) := by
  unfold close
  split
  · exact raises_fault _ rfl
  · split
    · exact raises_ok _
    · exact raises_fault _ rfl

theorem raises_marker (s : State) :
    Raises (MarkersError source [m] [.reading, .building]) (marker source language s m) := by
  have hread {α : Type} {x : Except TemplateError α}
      (hx : Raises (MarkerError source m .reading) x) :
      Raises (MarkersError source [m] [.reading, .building]) x :=
    hx.mono fun _ he => ⟨m, by simp, .reading, by simp, he⟩
  have hbuild {α : Type} {x : Except TemplateError α}
      (hx : Raises (MarkerError source m .building) x) :
      Raises (MarkersError source [m] [.reading, .building]) x :=
    hx.mono fun _ he => ⟨m, by simp, .building, by simp, he⟩
  unfold marker
  dsimp only
  split
  case h_1 | h_2 => exact raises_ok _
  case h_3 | h_4 => exact (hread (raises_readExpr _ _ _)).bind fun _ _ => raises_ok _
  case h_5 => exact (hread (raises_loopHeader _)).bind fun _ _ => raises_ok _
  case h_6 => exact (hread raises_sectionName).bind fun _ _ => raises_ok _
  case h_7 => exact (hread (raises_readExpr _ _ _)).bind fun _ _ => hbuild (raises_branch s _)
  case h_8 => exact hbuild (raises_branch s _)
  case h_9 => exact hbuild (raises_close s _)
  case h_10 | h_12 => exact (hread raises_textArg).bind fun _ _ => raises_ok _
  case h_11 => exact (hread (raises_textArgs 1 2)).bind fun _ _ => raises_ok _
  case h_13 =>
    refine (hread raises_customNode).bind fun node _ => ?_
    split <;> exact raises_ok _

theorem raises_build (segments : List Segment) :
    Raises (MarkersError source (segments.filterMap Segment.marker?) [.reading, .building])
      (build source language segments) := by
  refine (raises_foldlM (fun s segment hsegment => ?_) _).bind fun s _ => raises_ok _
  cases segment with
  | literal text => exact raises_ok _
  | marker m =>
    have hm : m ∈ segments.filterMap Segment.marker? :=
      List.mem_filterMap.2 ⟨.marker m, hsegment, rfl⟩
    refine (raises_marker s).mono fun e he => ?_
    obtain ⟨m', hm', stage, hstage, he⟩ := he
    obtain rfl := List.mem_singleton.1 hm'
    exact ⟨m', hm, stage, hstage, he⟩

end Builder

/-- An error of a source that is not a template: scanning finds it, or it is about a marker. -/
def SourceError (language : Language) (source : Source) (e : TemplateError) : Prop :=
  ScanError source source.size e ∨
    ∃ found, segments language.directives source = .ok found ∧
      MarkersError source (found.filterMap Segment.marker?) [.balancing, .reading, .building] e

/-- **Stages.** A source that is not a template is at fault itself. -/
theorem raises_parseTemplate (language : Language) (source : Source) :
    Raises (SourceError language source) (parseTemplate language source) := by
  have hmarkers {found : List Segment} {stages : List Stage} {e : TemplateError}
      (hfound : segments language.directives source = .ok found)
      (h : MarkersError source (found.filterMap Segment.marker?) stages e)
      (hsub : stages ⊆ [.balancing, .reading, .building]) : SourceError language source e :=
    .inr ⟨found, hfound, h.mono hsub⟩
  have hscan : Raises (SourceError language source) (scan language.directives source) := by
    refine ((raises_segments _ _).mono fun _ => .inl).bind fun found hfound => ?_
    refine .bind ?_ fun _ _ => raises_ok _
    exact (raises_checkBalance _).mono fun _ he => hmarkers hfound he (by simp)
  refine hscan.bind fun found hfound => ?_
  obtain ⟨found', hsegments, hrest⟩ := Lexer.bind_eq_ok.1 hfound
  obtain ⟨-, -, heq⟩ := Lexer.bind_eq_ok.1 hrest
  cases heq
  exact (Builder.raises_build found).mono fun _ he => hmarkers hsegments he (by simp)

/-- An error of a source is never one of compiling. -/
theorem SourceError.of {language : Language} {source : Source} {e : TemplateError}
    (h : SourceError language source e) : e.Of [.scanning, .balancing, .reading, .building] := by
  rcases h with h | ⟨found, -, h⟩
  · exact ⟨.scanning, by simp, h.stage?⟩
  · exact (h.mono (List.subset_cons_self .scanning _)).of

end Hashmark
