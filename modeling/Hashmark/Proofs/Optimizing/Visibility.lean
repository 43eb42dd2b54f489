import Hashmark.Proofs.Escaping.Plain
import Hashmark.Proofs.Optimizing.Comments
import Hashmark.Proofs.Optimizing.Passes

/-!
# What is visible of an optimized artifact

A text without comments stays the same up to blanks when it is minified, from whatever region
(`squeeze_minifyChars`); a text without tags of raw elements becomes what is visible of it
(`squeeze_minifyChars_visible`). So if every text of an artifact opens no comment once its own are
dropped, and nothing but texts brings brackets into the output, then the same is visible of the
output before and after the artifact is optimized (`Artifact.keepsVisible`).
-/

namespace Hashmark

/-! ### Minifying and blanks -/

section Minifying

variable {cs ds : List Char}

theorem noComment_of_append (before : List Char) (h : noComment (before ++ cs) = true) :
    noComment cs = true := by
  induction before with
  | nil => exact h
  | cons b before ih =>
    simp only [List.cons_append, noComment, Bool.and_eq_true] at h
    exact ih h.2

theorem noComment_drop (h : noComment cs = true) (n : Nat) : noComment (cs.drop n) = true :=
  noComment_of_append (cs.take n) (by rwa [List.take_append_drop])

theorem mentionsRawElement_of_append (before : List Char)
    (h : mentionsRawElement (before ++ cs) = false) : mentionsRawElement cs = false := by
  induction before with
  | nil => exact h
  | cons b before ih =>
    simp only [List.cons_append, mentionsRawElement, Bool.or_eq_false_iff] at h
    exact ih h.2

theorem isBlank_of_mem_takeWhile {b : Char} (h : b ∈ cs.takeWhile Text.isBlank) :
    Text.isBlank b = true :=
  List.all_eq_true.1 List.all_takeWhile b h

/-- The first blanks of a text become one blank. -/
theorem squeeze_blanks {c : Char} (hc : Text.isBlank c = true)
    (h : squeeze ds = squeeze (cs.dropWhile Text.isBlank)) (blanks : List Char) :
    squeeze (collapsed blanks :: ds) = squeeze (c :: cs) := by
  have hrun : ∀ b ∈ cs.takeWhile Text.isBlank, Text.isBlank b = true :=
    fun b => isBlank_of_mem_takeWhile
  rw [squeeze_collapsed hc hrun h, List.takeWhile_append_dropWhile]

/-- **Texts without comments.** Up to blanks, minifying keeps a text without whole comments,
whatever the region is. -/
theorem squeeze_minifyChars (region : Region) (h : noComment cs = true) :
    squeeze (minifyChars region cs).1 = squeeze cs := by
  induction region, cs using minifyChars_induction with
  | nil region => rw [minifyChars_nil]
  | closing c cs element n hclosing ih =>
    rw [minifyChars_closing hclosing]
    conv => rhs; rw [← List.take_append_drop n (c :: cs)]
    exact squeeze_append_congr rfl (ih (noComment_drop h n))
  | raw c cs element hclosing ih =>
    simp only [noComment, Bool.and_eq_true] at h
    rw [minifyChars_raw hclosing, squeeze_cons, squeeze_cons, ih h.2]
  | comment c cs region rest hregion hcomment ih =>
    simp [noComment, hcomment] at h
  | opening c cs region element n hregion hcomment hopening ih =>
    rw [minifyChars_opening hregion hcomment hopening]
    conv => rhs; rw [← List.take_append_drop n (c :: cs)]
    exact squeeze_append_congr rfl (ih (noComment_drop h n))
  | blank c cs region hregion hcomment hopening hblank ih =>
    simp only [noComment, Bool.and_eq_true] at h
    have hrest : noComment (cs.dropWhile Text.isBlank) = true :=
      noComment_of_append (cs.takeWhile Text.isBlank)
        (by rw [List.takeWhile_append_dropWhile]; exact h.2)
    rw [minifyChars_blank hregion hcomment hopening hblank]
    exact squeeze_blanks hblank (ih hrest) _
  | char c cs region hregion hcomment hopening hblank ih =>
    simp only [noComment, Bool.and_eq_true] at h
    rw [minifyChars_char hregion hcomment hopening hblank, squeeze_cons, squeeze_cons, ih h.2]

/-- A text that mentions no raw element does not start with a tag of one. -/
theorem tags_of_mentionsRawElement {c : Char} (h : mentionsRawElement (c :: cs) = false) :
    openingRaw? (c :: cs) = none ∧ ∀ element, closingTag? element (c :: cs) = none := by
  simp only [mentionsRawElement, Bool.or_eq_false_iff, List.any_eq_false, Bool.not_eq_true,
    Option.isSome_eq_false_iff, Option.isNone_iff_eq_none] at h
  refine ⟨List.findSome?_eq_none_iff.2 fun element helement => ?_, fun element => ?_⟩
  · simp [(h.1 element helement).1]
  · exact (h.1 element (by cases element <;> decide)).2

theorem dropComment?_blank {c : Char} (hc : Text.isBlank c = true) :
    dropComment? (c :: cs) = none :=
  dropComment?_of_ne fun h => absurd hc (h ▸ by decide)

/-- Blanks are visible. -/
theorem visible_blanks {run : List Char} (hrun : ∀ b ∈ run, Text.isBlank b = true) :
    visible (run ++ cs) = run ++ visible cs := by
  induction run with
  | nil => rfl
  | cons b run ih =>
    obtain ⟨hb, hrun⟩ := List.forall_mem_cons.1 hrun
    rw [List.cons_append, visible_char (dropComment?_blank hb), ih hrun, List.cons_append]

/-- **Texts without raw elements.** Outside of raw elements, a text without tags of them becomes
what is visible of it, up to blanks, and the region stays. -/
theorem squeeze_minifyChars_visible {region : Region} (hregion : ∀ element, region ≠ .raw element)
    (h : mentionsRawElement cs = false) :
    squeeze (minifyChars region cs).1 = squeeze (visible cs) ∧ (minifyChars region cs).2 = region := by
  induction region, cs using minifyChars_induction with
  | nil region => simp [minifyChars_nil]
  | closing c cs element => exact absurd rfl (hregion element)
  | raw c cs element => exact absurd rfl (hregion element)
  | comment c cs region rest _ hcomment ih =>
    obtain ⟨before, -, hbefore⟩ := exists_append_of_dropComment? hcomment
    rw [minifyChars_comment hregion hcomment, visible_comment hcomment]
    exact ih hregion (mentionsRawElement_of_append before (hbefore ▸ h))
  | opening c cs region element n _ hcomment hopening =>
    rw [(tags_of_mentionsRawElement h).1] at hopening
    cases hopening
  | blank c cs region _ hcomment hopening hblank ih =>
    have hcs : mentionsRawElement cs = false := mentionsRawElement_of_append [c] h
    have hrest : mentionsRawElement (cs.dropWhile Text.isBlank) = false :=
      mentionsRawElement_of_append (cs.takeWhile Text.isBlank)
        (by rw [List.takeWhile_append_dropWhile]; exact hcs)
    obtain ⟨hsqueeze, hlast⟩ := ih hregion hrest
    rw [minifyChars_blank hregion hcomment hopening hblank, visible_char hcomment]
    refine ⟨?_, hlast⟩
    have hrun : ∀ b ∈ cs.takeWhile Text.isBlank, Text.isBlank b = true :=
      fun b => isBlank_of_mem_takeWhile
    rw [squeeze_collapsed hblank hrun hsqueeze, ← visible_blanks hrun,
      List.takeWhile_append_dropWhile]
  | char c cs region _ hcomment hopening hblank ih =>
    obtain ⟨hsqueeze, hlast⟩ := ih hregion (mentionsRawElement_of_append [c] h)
    rw [minifyChars_char hregion hcomment hopening hblank, visible_char hcomment, squeeze_cons,
      squeeze_cons, hsqueeze]
    exact ⟨rfl, hlast⟩

/-- Inside a raw element, a text without tags of raw elements stays as it is. -/
theorem minifyChars_inside (element : RawElement) (h : mentionsRawElement cs = false) :
    minifyChars (.raw element) cs = (cs, .raw element) := by
  induction cs with
  | nil => exact minifyChars_nil
  | cons c cs ih =>
    rw [minifyChars_raw ((tags_of_mentionsRawElement h).2 element),
      ih (mentionsRawElement_of_append [c] h)]

end Minifying

/-! ### Texts without comments -/

theorem congruent_squeeze : Congruent fun x y => squeeze x = squeeze y :=
  ⟨rfl, squeeze_append_congr⟩

theorem comparable_squeeze (callables : Callables) :
    Comparable (fun x y => squeeze x = squeeze y) callables fun _ => True where
  congruent := congruent_squeeze
  emit _ _ := rfl
  default _ := rfl
  passes _ _ _ := trivial

theorem squeeze_minifyText (region : Region) {text : String} (h : noComment text.toList = true) :
    squeeze (minifyText region text).1.toList = squeeze text.toList := by
  unfold minifyText
  split
  · rfl
  · rw [String.toList_ofList, squeeze_minifyChars _ h]

theorem allows_squeeze :
    Allows (fun x y => squeeze x = squeeze y) fun text => noComment text.toList = true where
  self _ := rfl
  minify {text} region h := by
    have hsqueeze := squeeze_minifyText region h
    refine ⟨?_, hsqueeze.symm⟩
    rw [← noComment_squeeze, hsqueeze, noComment_squeeze, h]

/-- **Artifacts without comments.** Optimizing an artifact whose texts have no whole comments
changes blanks only. -/
theorem Artifact.optimize_blanks (a : Artifact)
    (ht : AllOf (fun text => noComment text.toList = true) a.preparedTexts) (callables : Callables)
    (s : Scopes) :
    match a.render callables s with
    | .error e => a.optimize.render callables s = .error e
    | .ok out => ∃ out', a.optimize.render callables s = .ok out' ∧
        squeeze out.toList = squeeze out'.toList :=
  a.render_optimize (comparable_squeeze callables) Eq.trans allows_squeeze ht s trivial

/-! ### Texts that open no comment -/

/-- Two texts that open no comment once their own are dropped, and of which the same is visible up
to blanks. -/
structure Alike (x y : List Char) : Prop where
  left : opensNone (visible x) = true
  right : opensNone (visible y) = true
  visible_eq : squeeze (visible x) = squeeze (visible y)

theorem Alike.refl {x : List Char} (h : opensNone (visible x) = true) : Alike x x :=
  ⟨h, h, rfl⟩

theorem Alike.trans {x y z : List Char} (h : Alike x y) (h' : Alike y z) : Alike x z :=
  ⟨h.left, h'.right, h.visible_eq.trans h'.visible_eq⟩

theorem visible_of_opensNone {cs : List Char} (h : opensNone cs = true) : visible cs = cs :=
  visible_of_noComment (noComment_of_opensNone h)

/-- A text without comments that looks as another one. -/
theorem Alike.of_squeeze {x y : List Char} (h : opensNone (visible x) = true)
    (hy : squeeze y = squeeze (visible x)) : Alike x y := by
  have hopens : opensNone y = true := by rw [← opensNone_squeeze, hy, opensNone_squeeze, h]
  exact ⟨h, by rw [visible_of_opensNone hopens, hopens], by rw [visible_of_opensNone hopens, hy]⟩

theorem congruent_alike : Congruent Alike where
  nil := .refl (by rw [visible_nil]; rfl)
  append {x y x' y'} h h' := by
    refine ⟨?_, ?_, ?_⟩
    · rw [visible_append h.left]
      exact opensNone_append h.left h'.left
    · rw [visible_append h.right]
      exact opensNone_append h.right h'.right
    · rw [visible_append h.left, visible_append h.right]
      exact squeeze_append_congr h.visible_eq h'.visible_eq

/-- What has no bracket looks as itself. -/
theorem NoMarkup.alike {cs : List Char} (h : NoMarkup cs) : Alike cs cs := by
  have hopens := opensNone_of_not_mem h.not_mem
  exact .refl (by rw [visible_of_opensNone hopens, hopens])

theorem comparable_alike : Comparable Alike .withoutRaw Scopes.Plain where
  congruent := congruent_alike
  emit hs hv :=
    (escape_plain (Expr.eval_plain hs _ (fun callee _ => keepsPlain_withoutRaw callee) hv)).alike
  default text := (noMarkup_escapeText text).alike
  passes hs hv hs' :=
    hs.passes (Expr.eval_plain hs _ (fun callee _ => keepsPlain_withoutRaw callee) hv) hs'

/-- Whether a text mentions no raw element. -/
def RawFree (text : String) : Prop :=
  mentionsRawElement text.toList = false

/-- A text that can be minified from any region, over and over, without hiding or showing
anything: it opens no comment, or it has comments but no tags of raw elements. -/
def Sound (text : String) : Prop :=
  opensNone text.toList = true ∨ (SelfContained text ∧ RawFree text)

theorem Sound.opensNone_visible {text : String} (h : Sound text) :
    opensNone (visible text.toList) = true := by
  rcases h with h | h
  · rw [visible_of_opensNone h, h]
  · exact h.1

theorem allows_alike : Allows Alike Sound where
  self h := .refl h.opensNone_visible
  minify {text} region h := by
    have hopens := h.opensNone_visible
    have hkind : ∀ {t : String}, squeeze t.toList = squeeze (visible text.toList) →
        Sound t ∧ Alike text.toList t.toList := by
      intro t ht
      exact ⟨.inl (by rw [← opensNone_squeeze, ht, opensNone_squeeze, hopens]), .of_squeeze hopens ht⟩
    rcases h with hnone | ⟨hself, hfree⟩
    · refine hkind ?_
      rw [squeeze_minifyText region (noComment_of_opensNone hnone), visible_of_opensNone hnone]
    · cases region with
      | markup =>
        refine hkind ?_
        change squeeze (String.ofList (minifyChars .markup text.toList).1).toList = _
        rw [String.toList_ofList]
        exact (squeeze_minifyChars_visible (by simp) hfree).1
      | raw element =>
        have hsame : (minifyText (.raw element) text).1 = text := by
          change String.ofList (minifyChars (.raw element) text.toList).1 = text
          rw [minifyChars_inside element hfree, String.ofList_toList]
        rw [hsame]
        exact ⟨.inr ⟨hself, hfree⟩, .refl hself⟩
      | unknown => exact ⟨.inr ⟨hself, hfree⟩, .refl hself⟩

/-- Whether the same is visible, up to blanks, of what an artifact writes before and after it is
optimized, for all data and the built-in callables other than `raw`. -/
def Artifact.KeepsVisible (a : Artifact) : Prop :=
  ∀ data : Json,
    match a.render .withoutRaw (.ofJson data) with
    | .error e => a.optimize.render .withoutRaw (.ofJson data) = .error e
    | .ok out => ∃ out', a.optimize.render .withoutRaw (.ofJson data) = .ok out' ∧
        squeeze (visible out.toList) = squeeze (visible out'.toList)

/-- **Comments that stay in their texts.** The same is visible of the output of an artifact before
and after it is optimized if each of its texts is sound. -/
theorem Artifact.keepsVisible (a : Artifact) (ht : AllOf Sound a.preparedTexts) :
    a.KeepsVisible := by
  intro data
  have h := a.render_optimize comparable_alike Alike.trans allows_alike ht (.ofJson data)
    (Scopes.plain_ofJson data)
  cases hout : a.render .withoutRaw (.ofJson data) with
  | error e =>
    rw [hout] at h
    exact h
  | ok out =>
    rw [hout] at h
    obtain ⟨out', hout', halike⟩ := h
    exact ⟨out', hout', halike.visible_eq⟩

end Hashmark
