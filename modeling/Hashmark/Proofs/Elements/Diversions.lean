import Hashmark.Proofs.Elements.Straying

/-!
# Texts that tell regions apart

Some texts are steady whatever is around them: those without brackets, and those that end in a tag,
open no comment and have no blanks (`inert`). With the latter a place where a page is read from
another region than the optimizer tells is made to one where it tells that there is no raw element,
and the page is read within one (`Strays.exists_diversion`).
-/

namespace Hashmark

/-! ### Texts without brackets -/

section NoBracket

variable {cs : List Char} {region : Region}

/-- Minifying adds no characters but blanks. -/
theorem mem_of_mem_minifyChars {d : Char} (hd : ¬Text.isBlank d = true)
    (h : d ∈ (minifyChars region cs).1) : d ∈ cs := by
  induction region, cs using minifyChars_induction with
  | nil region => rwa [minifyChars_nil] at h
  | closing c cs element n hclosing ih =>
    rw [minifyChars_closing hclosing] at h
    rcases List.mem_append.1 h with h | h
    · exact List.mem_of_mem_take h
    · exact List.mem_of_mem_drop (ih h)
  | raw c cs element hclosing ih =>
    rw [minifyChars_raw hclosing] at h
    exact List.mem_cons.2 ((List.mem_cons.1 h).imp id ih)
  | comment c cs region rest hregion hcomment ih =>
    rw [minifyChars_comment hregion hcomment] at h
    obtain ⟨before, -, heq⟩ := exists_append_of_dropComment? hcomment
    rw [heq]
    exact List.mem_append_right _ (ih h)
  | opening c cs region element n hregion hcomment hopening ih =>
    rw [minifyChars_opening hregion hcomment hopening] at h
    rcases List.mem_append.1 h with h | h
    · exact List.mem_of_mem_take h
    · exact List.mem_of_mem_drop (ih h)
  | blank c cs region hregion hcomment hopening hblank ih =>
    rw [minifyChars_blank hregion hcomment hopening hblank] at h
    rcases List.mem_cons.1 h with rfl | h
    · exact absurd (isBlank_collapsed _) hd
    · exact List.mem_cons_of_mem _ ((List.dropWhile_suffix _).subset (ih h))
  | char c cs region hregion hcomment hopening hblank ih =>
    rw [minifyChars_char hregion hcomment hopening hblank] at h
    exact List.mem_cons.2 ((List.mem_cons.1 h).imp id ih)

theorem not_mem_minifiedTimes {text : String} (h : '<' ∉ text.toList) (n : Nat) (region : Region) :
    '<' ∉ (minifiedTimes n region text).toList := by
  induction n with
  | zero => exact h
  | succ n ih =>
    rw [minifiedTimes, minified]
    unfold minifyText
    split
    · exact ih
    · rw [String.toList_ofList]
      exact fun hmem => ih (mem_of_mem_minifyChars (by decide) hmem)

/-- **Texts without brackets** are steady. -/
theorem steady_of_not_mem {text : String} (h : '<' ∉ text.toList) : Steady text := by
  have hsettled : ∀ region, '<' ∉ (settleText region text).toList := by
    intro region
    obtain ⟨n, hn⟩ := exists_minifiedTimes region text
    rw [hn]
    exact not_mem_minifiedTimes h n region
  have hregion : ∀ {t : String}, '<' ∉ t.toList → ∀ region, (minifyText region t).2 = region :=
    fun ht region => minifyText_region (mentionsRawElement_of_not_mem ht) region
  have hmarks : ∀ {t : String}, '<' ∉ t.toList → ∀ region,
      marks region t.toList = charMarks region t.toList := by
    intro t ht region
    simpa using marks_append_of_not_mem region ht []
  refine ⟨fun n region => ?_, fun region _ => readsAlone_of_not_mem region h,
    fun region _ => readsAlone_of_not_mem region (hsettled region), fun region _ => ?_⟩
  · rw [hregion (not_mem_minifiedTimes h n region), hregion h]
  · rw [hmarks (hsettled region), hmarks h]
    cases region with
    | markup | unknown => rfl
    | raw element =>
      have hsame : minified (.raw element) text = text := by
        change String.ofList (minifyChars (.raw element) text.toList).1 = text
        rw [minifyChars_inside element (mentionsRawElement_of_not_mem h), String.ofList_toList]
      rw [settleText_of_eq hsame]

end NoBracket

/-! ### Inert texts -/

/-- Whether a text ends in a tag, opens no comment and has no blanks. -/
def inert : List Char → Bool
  | [] => true
  | c :: cs => (c :: cs).contains '>' && !opensComment (c :: cs) && !Text.isBlank c && inert cs

section Inert

variable {cs : List Char} {c : Char} {region : Region}

theorem inert_cons : inert (c :: cs) = true ↔
    '>' ∈ c :: cs ∧ opensComment (c :: cs) = false ∧ ¬Text.isBlank c = true ∧ inert cs = true := by
  simp only [inert, Bool.and_eq_true, Bool.not_eq_true', List.contains_iff_mem, Bool.not_eq_true,
    and_assoc]

theorem inert_drop (h : inert cs = true) (n : Nat) : inert (cs.drop n) = true := by
  induction n generalizing cs with
  | zero => exact h
  | succ n ih =>
    cases cs with
    | nil => rfl
    | cons c cs => exact ih (inert_cons.1 h).2.2.2

theorem opensComment_of_inert (h : inert (c :: cs) = true) : dropComment? (c :: cs) = none := by
  simpa using dropComment?_append_eq_none (inert_cons.1 h).2.1 []

/-- An inert text is read on its own. -/
theorem readsAlone_of_inert (hknown : region ≠ .unknown) (h : inert cs = true) :
    ReadsAlone region cs := by
  induction region, cs using marks_induction with
  | nil region => exact readsAlone_nil region
  | closing c cs element n hclosing ih =>
    obtain hsome | ⟨⟨-, hend⟩, -⟩ := tagAt?_append_of_some .closing hclosing
    · exact (readsUpTo_closing hsome).readsAlone (ih (by simp) (inert_drop h n))
    · exact absurd (inert_cons.1 h).1 hend
  | raw c cs element hclosing ih =>
    obtain hnone | ⟨⟨-, hend⟩, -⟩ := tagAt?_append_of_none .closing hclosing
    · exact (readsUpTo_raw hnone).readsAlone (ih hknown (inert_cons.1 h).2.2.2)
    · exact absurd (inert_cons.1 h).1 hend
  | comment c cs region rest hraw hcomment ih =>
    rw [opensComment_of_inert h] at hcomment
    cases hcomment
  | opening c cs region element n hraw hcomment hopening ih =>
    obtain rfl := eq_markup hraw hknown
    obtain hsome | ⟨⟨-, hend⟩, -⟩ := openingRaw?_append_of_some hopening
    · exact (readsUpTo_opening (inert_cons.1 h).2.1 hsome).readsAlone (ih (by simp) (inert_drop h n))
    · exact absurd (inert_cons.1 h).1 hend
  | char c cs region hraw hcomment hopening ih =>
    obtain rfl := eq_markup hraw hknown
    obtain hnone | ⟨⟨-, hend⟩, -⟩ := openingRaw?_append_of_none hopening
    · exact (readsUpTo_char (inert_cons.1 h).2.1 hnone).readsAlone (ih hknown (inert_cons.1 h).2.2.2)
    · exact absurd (inert_cons.1 h).1 hend

theorem minifyChars_of_inert (region : Region) (h : inert cs = true) :
    (minifyChars region cs).1 = cs := by
  induction region, cs using minifyChars_induction with
  | nil region => rw [minifyChars_nil]
  | closing c cs element n hclosing ih =>
    rw [minifyChars_closing hclosing, ih (inert_drop h n), List.take_append_drop]
  | raw c cs element hclosing ih =>
    rw [minifyChars_raw hclosing, ih (inert_cons.1 h).2.2.2]
  | comment c cs region rest hregion hcomment ih =>
    rw [opensComment_of_inert h] at hcomment
    cases hcomment
  | opening c cs region element n hregion hcomment hopening ih =>
    rw [minifyChars_opening hregion hcomment hopening, ih (inert_drop h n), List.take_append_drop]
  | blank c cs region hregion hcomment hopening hblank =>
    exact absurd hblank (inert_cons.1 h).2.2.1
  | char c cs region hregion hcomment hopening hblank ih =>
    rw [minifyChars_char hregion hcomment hopening hblank, ih (inert_cons.1 h).2.2.2]

theorem minified_of_inert (region : Region) {text : String} (h : inert text.toList = true) :
    minified region text = text := by
  unfold minified minifyText
  split
  · rfl
  · exact (congrArg String.ofList (minifyChars_of_inert _ h)).trans String.ofList_toList

/-- **Inert texts** are steady. -/
theorem steady_of_inert {text : String} (h : inert text.toList = true) : Steady text := by
  have hsettled : ∀ region, settleText region text = text :=
    fun region => settleText_of_eq (minified_of_inert region h)
  have htimes : ∀ n region, minifiedTimes n region text = text := by
    intro n region
    induction n with
    | zero => rfl
    | succ n ih => rw [minifiedTimes, ih, minified_of_inert region h]
  refine ⟨fun n region => by rw [htimes], fun region hknown => readsAlone_of_inert hknown h,
    fun region hknown => ?_, fun region _ => by rw [hsettled]⟩
  rw [hsettled]
  exact readsAlone_of_inert hknown h

end Inert

/-! ### Diversions -/

/-- A whole opening tag. -/
def RawElement.openTag (element : RawElement) : List Char :=
  ['<'] ++ element.tag ++ ['>']

/-- A whole closing tag. -/
def RawElement.closeTag (element : RawElement) : List Char :=
  ['<', '/'] ++ element.tag ++ ['>']

/-- Another raw element. -/
def RawElement.other : RawElement → RawElement
  | .pre => .style
  | .textarea | .script | .style => .pre

/-- A text that ends where no raw element is told, but within one if it is read from another region
than the one that is told. -/
def diversion : Region → Region → List Char
  | .raw element, .raw _ => ['>'] ++ element.closeTag
  | .raw element, .markup => ['>'] ++ element.other.openTag ++ element.closeTag
  | _, _ => ['>']

/-- The same for a text of which a part is hidden in a comment, and what is shown of it. -/
def unhiding : Region → List Char × List Char
  | .raw element =>
    (['-', '-', '>'] ++ element.other.openTag ++ element.closeTag,
      element.other.openTag ++ element.closeTag)
  | _ =>
    (RawElement.pre.openTag ++ ['-', '-', '>'] ++ RawElement.style.openTag ++
        RawElement.pre.closeTag, RawElement.style.openTag ++ RawElement.pre.closeTag)

theorem inert_diversion (told real : Region) : inert (diversion told real) = true := by
  unfold diversion
  split
  · next element _ => cases element <;> decide
  · next element => cases element <;> decide
  · decide

/-- **Diversions.** After a diversion, no raw element is told, and the page is read within one. -/
theorem after_diversion {told real : Region} (htold : told ≠ .unknown) (hreal : real ≠ .unknown)
    (hne : real ≠ told) : after told (diversion told real) = .markup ∧
      ∃ element, after real (diversion told real) = .raw element := by
  cases told with
  | unknown => exact absurd rfl htold
  | markup =>
    cases real with
    | markup => exact absurd rfl hne
    | raw element =>
      have hbracket : '<' ∉ diversion .markup (.raw element) := by simp [diversion]
      exact ⟨after_of_not_mem _ hbracket, element, after_of_not_mem _ hbracket⟩
    | unknown => exact absurd rfl hreal
  | raw element =>
    cases real with
    | markup => refine ⟨?_, element.other, ?_⟩ <;> cases element <;> cbv
    | raw element' =>
      refine ⟨?_, element', ?_⟩
      · cases element <;> cbv
      · -- the closing tag of another element
        cases element <;> cases element' <;> first
          | exact absurd rfl hne
          | cbv
    | unknown => exact absurd rfl hreal

theorem exists_inert_diversion {told real : Region} (htold : told ≠ .unknown) (hreal : real ≠ .unknown)
    (hne : real ≠ told) : ∃ v, inert v = true ∧ after told v = .markup ∧
      ∃ element, after real v = .raw element :=
  ⟨diversion told real, inert_diversion told real, after_diversion htold hreal hne⟩

theorem inert_unhiding (told : Region) :
    inert (unhiding told).1 = true ∧ inert (unhiding told).2 = true := by
  cases told with
  | raw element => cases element <;> decide
  | markup | unknown => decide

theorem after_unhiding {told : Region} (htold : told ≠ .unknown) :
    after told (unhiding told).1 = .markup ∧
      ∃ element, after .markup (unhiding told).2 = .raw element := by
  cases told with
  | markup => exact ⟨by cbv, .style, by cbv⟩
  | raw element => refine ⟨?_, element.other, ?_⟩ <;> cases element <;> cbv
  | unknown => exact absurd rfl htold

theorem cut_unhiding (told : Region) (rest : List Char) :
    (Text.cut ['-', '-', '>'] ((unhiding told).1 ++ rest)).map Prod.snd =
      some ((unhiding told).2 ++ rest) := by
  cases told <;>
    simp [unhiding, RawElement.openTag, RawElement.tag, Text.cut, Text.dropStart?]

/-- **Straying texts divert.** If a text strays, then after something that is emitted and an inert
text no raw element is told, and the page is read within one. -/
theorem Strays.exists_diversion {region : Region} {cs : List Char} (h : Strays region cs)
    (htold : after region cs ≠ .unknown) :
    ∃ emitted v element ms, EmittedAsIs emitted ∧ inert v = true ∧
      after (after region cs) v = .markup ∧ ∀ rest,
        marks region (cs ++ (emitted ++ (v ++ rest))) = ms ++ marks (.raw element) rest := by
  cases h with
  | misled emitted real ms hemitted hreal hne hmarks =>
    obtain ⟨v, hinert, htold', element, hreal'⟩ :=
      exists_inert_diversion htold hreal hne
    refine ⟨emitted, v, element, ms ++ marks real v, hemitted, hinert, htold', fun rest => ?_⟩
    rw [hmarks, readsAlone_of_inert hreal hinert, hreal', List.append_assoc]
  | hidden emitted ms hemitted hmarks =>
    obtain ⟨htold', element, hreal'⟩ := after_unhiding htold
    obtain ⟨hinert, hshown⟩ := inert_unhiding (after region cs)
    refine ⟨emitted, _, element, ms ++ marks .markup (unhiding (after region cs)).2, hemitted,
      hinert, htold', fun rest => ?_⟩
    rw [hmarks _ _ (cut_unhiding _ rest), readsAlone_of_inert (by simp) hshown, hreal',
      List.append_assoc]

end Hashmark
