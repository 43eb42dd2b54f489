import Hashmark.Proofs.Elements.Steadiness
import Hashmark.Proofs.Elements.Tags
import Hashmark.Proofs.Optimizing.Hiding

/-!
# Texts that stray

A text that is not read on its own ends within a tag, right after the name of a tag, or in a comment
that is open (`Strays`): some letters after it make the page be read from another region than the one
in which the text ends, or hide what comes up to the end of a comment. Each text is read on its own
or strays (`readsAlone_or_strays`).
-/

namespace Hashmark

/-- **Straying texts.** What a text is read as if some characters follow it that are emitted as they
are. -/
inductive Strays (region : Region) (cs : List Char) : Prop where
  /-- What follows is read from another region than the one in which the text ends. -/
  | misled (emitted : List Char) (real : Region) (ms : List Mark) :
      EmittedAsIs emitted → real ≠ .unknown → real ≠ after region cs →
      (∀ rest, marks region (cs ++ (emitted ++ rest)) = ms ++ marks real rest) →
      Strays region cs
  /-- What follows is hidden up to the end of a comment. -/
  | hidden (emitted : List Char) (ms : List Mark) :
      EmittedAsIs emitted →
      (∀ rest shown, (Text.cut ['-', '-', '>'] rest).map Prod.snd = some shown →
        marks region (cs ++ (emitted ++ rest)) = ms ++ marks .markup shown) →
      Strays region cs

/-- Whether a text is read up to a point however it goes on. -/
structure ReadsUpTo (region mid : Region) (cs rest : List Char) (ms : List Mark) : Prop where
  marks_eq : ∀ more, marks region (cs ++ more) = ms ++ marks mid (rest ++ more)
  after_eq : after region cs = after mid rest

namespace ReadsUpTo

variable {region mid : Region} {cs rest : List Char} {ms : List Mark}

theorem readsAlone (h : ReadsUpTo region mid cs rest ms) (hrest : ReadsAlone mid rest) :
    ReadsAlone region cs := by
  intro more
  have hself := h.marks_eq []
  rw [List.append_nil, List.append_nil] at hself
  rw [h.marks_eq, hrest, hself, h.after_eq, List.append_assoc]

theorem strays (h : ReadsUpTo region mid cs rest ms) (hrest : Strays mid rest) :
    Strays region cs := by
  cases hrest with
  | misled emitted real ms' hemitted hknown hreal hmarks =>
    exact .misled emitted real (ms ++ ms') hemitted hknown (h.after_eq ▸ hreal) fun rest' => by
      rw [h.marks_eq, hmarks, List.append_assoc]
  | hidden emitted ms' hemitted hmarks =>
    exact .hidden emitted (ms ++ ms') hemitted fun rest' shown hshown => by
      rw [h.marks_eq, hmarks rest' shown hshown, List.append_assoc]

/-- What comes up to a point is read on its own, so it depends on the rest whether the text is. -/
theorem readsAlone_or_strays (h : ReadsUpTo region mid cs rest ms)
    (hrest : ReadsAlone mid rest ∨ Strays mid rest) : ReadsAlone region cs ∨ Strays region cs :=
  hrest.imp h.readsAlone h.strays

end ReadsUpTo

/-! ### Within raw elements -/

section Raw

variable {element : RawElement} {c : Char} {cs : List Char} {n : Nat}

/-- Characters within a raw element that start no closing tag. -/
theorem marks_raw_append {rest : List Char} (hbracket : '<' ∉ cs)
    (hnone : closingTag? element (c :: (cs ++ rest)) = none) :
    marks (.raw element) (c :: (cs ++ rest)) =
      charMarks (.raw element) (c :: cs) ++ marks (.raw element) rest := by
  rw [marks_raw hnone, marks_append_of_not_mem _ hbracket]
  rfl

/-- The rest of a text after its start. -/
theorem drop_start (c d : Char) (cs missing rest : List Char) :
    (c :: (cs ++ (missing ++ d :: rest))).drop (c :: cs ++ missing).length = d :: rest := by
  rw [show c :: (cs ++ (missing ++ d :: rest)) = (c :: cs ++ missing) ++ d :: rest by simp,
    List.drop_left]

/-- A closing tag. -/
theorem readsUpTo_closing (h : ∀ more, closingTag? element (c :: (cs ++ more)) = some n) :
    ReadsUpTo (.raw element) .markup (c :: cs) ((c :: cs).drop n) [.closing] := by
  have hself : closingTag? element (c :: cs) = some n := by simpa using h []
  refine ⟨fun more => ?_, after_closing hself⟩
  rw [List.cons_append, marks_closing (h more), ← List.cons_append,
    List.drop_append_of_le_length (tagAt?_length_le .closing hself)]
  rfl

/-- What looks like a closing tag at the end of a text: a letter after the name makes it another tag,
so the element does not end. -/
theorem strays_closing (hbracket : '<' ∉ cs) (h : closingTag? element (c :: cs) = some n)
    (hlength : (c :: cs).length = n)
    (hnone : ∀ more, closingTag? element (c :: (cs ++ 'y' :: more)) = none) :
    Strays (.raw element) (c :: cs) := by
  refine .misled ['y'] (.raw element) (charMarks (.raw element) (c :: (cs ++ ['y'])))
    (by decide) (by simp) ?_ fun rest => ?_
  · rw [after_closing h, List.drop_eq_nil_of_le (Nat.le_of_eq hlength), after_nil]
    simp
  · have hclosing : closingTag? element (c :: ((cs ++ ['y']) ++ rest)) = none := by
      simpa using hnone rest
    have hmarks := marks_raw_append (by simpa using hbracket) hclosing
    simpa using hmarks

/-- A character of a raw element. -/
theorem readsUpTo_raw (h : ∀ more, closingTag? element (c :: (cs ++ more)) = none) :
    ReadsUpTo (.raw element) (.raw element) (c :: cs) cs [.char c] where
  marks_eq more := marks_raw (h more)
  after_eq := after_raw (by simpa using h [])

/-- The start of a closing tag. -/
theorem strays_raw (hbracket : '<' ∉ cs) (h : closingTag? element (c :: cs) = none)
    {missing : List Char} (hmissing : EmittedAsIs missing)
    (htag : ∀ more, closingTag? element (c :: (cs ++ (missing ++ ' ' :: more))) =
      some (c :: cs ++ missing).length) : Strays (.raw element) (c :: cs) := by
  refine .misled (missing ++ [' ']) .markup [.closing] ?_ (by simp) ?_ fun rest => ?_
  · exact hmissing.append (by decide)
  · rw [after_raw h, after_of_not_mem _ hbracket]
    simp
  · have hspace := @marks_append_of_not_mem .markup [' '] (by decide) rest
    simp only [List.cons_append, List.append_assoc, List.nil_append] at hspace ⊢
    rw [marks_closing (htag rest), drop_start, hspace]
    rfl

end Raw

/-! ### Outside of raw elements -/

section Markup

variable {c : Char} {cs rest : List Char} {element : RawElement} {n : Nat}

theorem markup_ne (element : RawElement) : Region.markup ≠ .raw element := by
  simp

/-- A comment. -/
theorem readsUpTo_comment (h : dropComment? (c :: cs) = some rest) :
    ReadsUpTo .markup .markup (c :: cs) rest [] where
  marks_eq more := marks_comment markup_ne (dropComment?_append h more)
  after_eq := after_comment markup_ne h

theorem emittedAsIs_opening {opening : String} (h : opening ∈ openings) :
    EmittedAsIs (opening.toList ++ ['y']) := by
  simp only [openings, List.mem_cons, List.not_mem_nil, or_false] at h
  rcases h with rfl | rfl | rfl | rfl <;> decide

/-- A comment that is open hides what follows up to its end. -/
theorem strays_of_opensComment (h : opensComment (c :: cs) = true)
    (hnone : dropComment? (c :: cs) = none) : Strays .markup (c :: cs) := by
  obtain ⟨opening, hmem, content, heq, hbracket, hcut⟩ := exists_content_of_opensComment h hnone
  refine .hidden _ [] (emittedAsIs_opening hmem) fun rest shown hshown => ?_
  have htext : c :: cs ++ (opening.toList ++ ['y'] ++ rest) =
      ['<', '!', '-', '-'] ++ (content ++ 'y' :: rest) := by
    rw [List.append_assoc, ← List.append_assoc (c :: cs), heq]
    simp
  have hbracket' : (content ++ 'y' :: rest).head? ≠ some '[' := by
    cases content with
    | nil => simp
    | cons d content => exact hbracket
  have hend := (cut_barrier (by simp) (by decide : 'y' ∉ ['-', '-', '>']) hcut rest).trans hshown
  obtain ⟨found, hfound, rfl⟩ := Option.map_eq_some_iff.1 hend
  rw [htext]
  exact marks_comment markup_ne (dropComment?_eq_some.2 ⟨_, found.1, rfl, hbracket', hfound⟩)

/-- An opening tag. -/
theorem readsUpTo_opening (hcomment : opensComment (c :: cs) = false)
    (h : ∀ more, openingRaw? (c :: (cs ++ more)) = some (element, n)) :
    ReadsUpTo .markup (.raw element) (c :: cs) ((c :: cs).drop n) [.opening] := by
  have hdropped : ∀ more, dropComment? (c :: (cs ++ more)) = none :=
    dropComment?_append_eq_none hcomment
  have hself : openingRaw? (c :: cs) = some (element, n) := by simpa using h []
  refine ⟨fun more => ?_, after_opening markup_ne (by simpa using hdropped []) hself⟩
  rw [List.cons_append, marks_opening markup_ne (hdropped more) (h more), ← List.cons_append,
    List.drop_append_of_le_length (tagAt?_length_le .opening (openingRaw?_eq_some.1 hself))]
  rfl

/-- What looks like an opening tag at the end of a text: a letter after the name makes it another
tag, so no element opens. -/
theorem strays_opening (hcomment : opensComment (c :: cs) = false) (hbracket : '<' ∉ cs)
    (h : openingRaw? (c :: cs) = some (element, n)) (hlength : (c :: cs).length = n)
    (hnone : ∀ more, openingRaw? (c :: (cs ++ 'y' :: more)) = none) : Strays .markup (c :: cs) := by
  have hdropped : ∀ more, dropComment? (c :: (cs ++ more)) = none :=
    dropComment?_append_eq_none hcomment
  refine .misled ['y'] .markup [] (by decide) (by simp) ?_ fun rest => ?_
  · rw [after_opening markup_ne (by simpa using hdropped []) h,
      List.drop_eq_nil_of_le (Nat.le_of_eq hlength), after_nil]
    simp
  · have hchars := @marks_append_of_not_mem .markup (cs ++ ['y']) (by simpa using hbracket) rest
    rw [List.append_assoc, charMarks_of_ne markup_ne] at hchars
    rw [List.cons_append, List.singleton_append, marks_char markup_ne (hdropped _) (hnone rest)]
    exact hchars

/-- A character outside of raw elements. -/
theorem readsUpTo_char (hcomment : opensComment (c :: cs) = false)
    (h : ∀ more, openingRaw? (c :: (cs ++ more)) = none) :
    ReadsUpTo .markup .markup (c :: cs) cs [] := by
  have hdropped : ∀ more, dropComment? (c :: (cs ++ more)) = none :=
    dropComment?_append_eq_none hcomment
  exact ⟨fun more => marks_char markup_ne (hdropped more) (h more),
    after_char markup_ne (by simpa using hdropped []) (by simpa using h [])⟩

/-- The start of an opening tag. -/
theorem strays_char (hcomment : opensComment (c :: cs) = false) (hbracket : '<' ∉ cs)
    (h : openingRaw? (c :: cs) = none) {missing : List Char} (hmissing : EmittedAsIs missing)
    (htag : ∀ more, openingRaw? (c :: (cs ++ (missing ++ ' ' :: more))) =
      some (element, (c :: cs ++ missing).length)) : Strays .markup (c :: cs) := by
  have hdropped : ∀ more, dropComment? (c :: (cs ++ more)) = none :=
    dropComment?_append_eq_none hcomment
  refine .misled (missing ++ [' ']) (.raw element) [.opening, .char ' '] ?_ (by simp) ?_
    fun rest => ?_
  · exact hmissing.append (by decide)
  · rw [after_char markup_ne (by simpa using hdropped []) h, after_of_not_mem _ hbracket]
    simp
  · have hspace := @marks_append_of_not_mem (.raw element) [' '] (by decide) rest
    simp only [List.cons_append, List.append_assoc, List.nil_append] at hspace ⊢
    rw [marks_opening markup_ne (hdropped _) (htag rest), drop_start, hspace]
    rfl

end Markup

/-! ### All texts -/

theorem eq_markup {region : Region} (hraw : ∀ element, region ≠ .raw element)
    (hknown : region ≠ .unknown) : region = .markup := by
  cases region with
  | markup => rfl
  | raw element => exact absurd rfl (hraw element)
  | unknown => exact absurd rfl hknown

/-- **Alone or astray.** From a known region, a text is read on its own, or it strays. -/
theorem readsAlone_or_strays {region : Region} (hknown : region ≠ .unknown) (cs : List Char) :
    ReadsAlone region cs ∨ Strays region cs := by
  induction region, cs using marks_induction with
  | nil region => exact .inl (readsAlone_nil region)
  | closing c cs element n hclosing ih =>
    obtain hsome | ⟨⟨hbracket, -⟩, hlength, hnone⟩ := tagAt?_append_of_some .closing hclosing
    · exact (readsUpTo_closing hsome).readsAlone_or_strays (ih (by simp))
    · exact .inr (strays_closing hbracket hclosing hlength hnone)
  | raw c cs element hclosing ih =>
    obtain hnone | ⟨⟨hbracket, -⟩, missing, hmissing, htag⟩ :=
      tagAt?_append_of_none .closing hclosing
    · exact (readsUpTo_raw hnone).readsAlone_or_strays (ih hknown)
    · exact .inr (strays_raw hbracket hclosing hmissing htag)
  | comment c cs region rest hraw hcomment ih =>
    obtain rfl := eq_markup hraw hknown
    exact (readsUpTo_comment hcomment).readsAlone_or_strays (ih hknown)
  | opening c cs region element n hraw hcomment hopening ih =>
    obtain rfl := eq_markup hraw hknown
    cases hopens : opensComment (c :: cs) with
    | true => exact .inr (strays_of_opensComment hopens hcomment)
    | false =>
      obtain hsome | ⟨⟨hbracket, -⟩, hlength, hnone⟩ := openingRaw?_append_of_some hopening
      · exact (readsUpTo_opening hopens hsome).readsAlone_or_strays (ih (by simp))
      · exact .inr (strays_opening hopens hbracket hopening hlength hnone)
  | char c cs region hraw hcomment hopening ih =>
    obtain rfl := eq_markup hraw hknown
    cases hopens : opensComment (c :: cs) with
    | true => exact .inr (strays_of_opensComment hopens hcomment)
    | false =>
      obtain hnone | ⟨⟨hbracket, -⟩, element, missing, hmissing, htag⟩ :=
        openingRaw?_append_of_none hopening
      · exact (readsUpTo_char hopens hnone).readsAlone_or_strays (ih hknown)
      · exact .inr (strays_char hopens hbracket hopening hmissing htag)

end Hashmark
