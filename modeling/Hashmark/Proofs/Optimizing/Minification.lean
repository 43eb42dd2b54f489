import Hashmark.Optimize.Region

/-!
# Minifying a text, step by step

`minifyChars` as one equation for each of its steps, and the searches that it makes, seen from a
text that goes on: what is found in a text is found in a longer text as well.
-/

namespace Hashmark

/-! ### Searches in longer texts -/

theorem Text.dropStart?_append {pattern cs rest : List Char}
    (h : Text.dropStart? pattern cs = some rest) (more : List Char) :
    Text.dropStart? pattern (cs ++ more) = some (rest ++ more) := by
  induction pattern generalizing cs with
  | nil => cases h; rfl
  | cons p ps ih =>
    cases cs with
    | nil => cases h
    | cons c cs =>
      simp only [Text.dropStart?, List.cons_append] at h ⊢
      split at h
      · next hp => rw [if_pos hp]; exact ih h
      · cases h

theorem Text.dropStart?_self (pattern rest : List Char) :
    Text.dropStart? pattern (pattern ++ rest) = some rest := by
  induction pattern with
  | nil => rfl
  | cons p ps ih => simp [Text.dropStart?, ih]

/-- A pattern that is not at the start of a text, but at the start of the longer one, is cut off by
the end of the text. -/
theorem Text.length_lt_of_dropStart?_append {pattern cs more rest : List Char}
    (hnone : Text.dropStart? pattern cs = none)
    (hsome : Text.dropStart? pattern (cs ++ more) = some rest) : cs.length < pattern.length := by
  induction pattern generalizing cs with
  | nil => cases hnone
  | cons p ps ih =>
    cases cs with
    | nil => simp
    | cons c cs =>
      simp only [Text.dropStart?, List.cons_append] at hnone hsome
      split at hsome
      · next hp =>
        rw [if_pos hp] at hnone
        have := ih hnone hsome
        simpa using this
      · cases hsome

theorem Text.length_cut {pattern cs before rest : List Char}
    (h : Text.cut pattern cs = some (before, rest)) :
    before.length + pattern.length + rest.length = cs.length := by
  rw [Text.eq_append_of_cut h, List.length_append, List.length_append]

/-- The first occurrence of a pattern stays the first one when the text goes on. -/
theorem Text.cut_append {pattern cs before rest : List Char}
    (h : Text.cut pattern cs = some (before, rest)) (more : List Char) :
    Text.cut pattern (cs ++ more) = some (before, rest ++ more) := by
  induction cs generalizing before with
  | nil =>
    simp only [Text.cut, Option.map_eq_some_iff, Prod.mk.injEq] at h
    obtain ⟨rest', h, rfl, rfl⟩ := h
    have hfound : Text.dropStart? pattern ([] ++ more) = some (rest' ++ more) :=
      Text.dropStart?_append h more
    cases hmore : [] ++ more with
    | nil => rw [hmore] at hfound; simp [Text.cut, hfound]
    | cons c cs => rw [hmore] at hfound; simp [Text.cut, hfound]
  | cons c cs ih =>
    unfold Text.cut at h
    split at h
    · next rest' hfound =>
      cases h
      have := Text.dropStart?_append hfound more
      rw [List.cons_append] at this ⊢
      simp [Text.cut, this]
    · next hnone =>
      simp only [Option.map_eq_some_iff, Prod.mk.injEq] at h
      obtain ⟨⟨before', rest'⟩, hcut, rfl, rfl⟩ := h
      -- the pattern lies in the rest of the text, so it cannot begin here and reach over its end
      have hnone' : Text.dropStart? pattern ((c :: cs) ++ more) = none := by
        cases hsome : Text.dropStart? pattern ((c :: cs) ++ more) with
        | none => rfl
        | some found =>
          have hshort := Text.length_lt_of_dropStart?_append hnone hsome
          have hlong := Text.length_cut hcut
          simp only [List.length_cons] at hshort
          omega
      rw [List.cons_append] at hnone' ⊢
      simp [Text.cut, hnone', ih hcut]

/-- A comment is found exactly if the text is its start, something else than a bracket, and its
end. -/
theorem dropComment?_eq_some {cs rest : List Char} :
    dropComment? cs = some rest ↔ ∃ content body, cs = ['<', '!', '-', '-'] ++ content ∧
      content.head? ≠ some '[' ∧ Text.cut ['-', '-', '>'] content = some (body, rest) := by
  simp only [dropComment?, Option.bind_eq_bind, Option.bind_eq_some_iff]
  constructor
  · rintro ⟨content, hstart, h⟩
    split at h
    · cases h
    · next hbracket =>
      obtain ⟨⟨body, rest'⟩, hcut, rfl⟩ := Option.map_eq_some_iff.1 h
      exact ⟨content, body, Text.eq_append_of_dropStart? hstart, hbracket, hcut⟩
  · rintro ⟨content, body, rfl, hbracket, hcut⟩
    exact ⟨content, Text.dropStart?_self _ _, by rw [if_neg hbracket, hcut]; rfl⟩

/-- A comment is what comes before the rest. -/
theorem exists_append_of_dropComment? {cs rest : List Char} (h : dropComment? cs = some rest) :
    ∃ before, before ≠ [] ∧ cs = before ++ rest := by
  obtain ⟨content, body, rfl, -, hcut⟩ := dropComment?_eq_some.1 h
  exact ⟨['<', '!', '-', '-'] ++ (body ++ ['-', '-', '>']), by simp,
    by simp [Text.eq_append_of_cut hcut]⟩

/-- A comment of a text is a comment of the longer text. -/
theorem dropComment?_append {cs rest : List Char} (h : dropComment? cs = some rest)
    (more : List Char) : dropComment? (cs ++ more) = some (rest ++ more) := by
  obtain ⟨content, body, rfl, hbracket, hcut⟩ := dropComment?_eq_some.1 h
  refine dropComment?_eq_some.2 ⟨content ++ more, body, by simp, ?_, Text.cut_append hcut more⟩
  cases content with
  | nil => cases hcut
  | cons c content => exact hbracket

/-! ### Steps -/

section Steps

variable {region : Region} {element : RawElement} {c : Char} {cs rest : List Char} {n : Nat}

theorem minifyChars_nil : minifyChars region [] = ([], region) := by
  rw [minifyChars]

theorem minifyChars_closing (h : closingTag? element (c :: cs) = some n) :
    minifyChars (.raw element) (c :: cs) =
      ((c :: cs).take n ++ (minifyChars .markup ((c :: cs).drop n)).1,
        (minifyChars .markup ((c :: cs).drop n)).2) := by
  rw [minifyChars]
  split
  · next m hm => rw [h] at hm; cases hm; rfl
  · next hm => rw [h] at hm; cases hm

theorem minifyChars_raw (h : closingTag? element (c :: cs) = none) :
    minifyChars (.raw element) (c :: cs) =
      (c :: (minifyChars (.raw element) cs).1, (minifyChars (.raw element) cs).2) := by
  rw [minifyChars]
  split
  · next m hm => rw [h] at hm; cases hm
  · rfl

theorem minifyChars_comment (hregion : ∀ element, region ≠ .raw element)
    (h : dropComment? (c :: cs) = some rest) :
    minifyChars region (c :: cs) = minifyChars region rest := by
  rw [minifyChars]
  · split
    · next rest' h' => rw [h] at h'; cases h'; rfl
    · next h' => rw [h] at h'; cases h'
  · exact hregion

theorem minifyChars_opening (hregion : ∀ element, region ≠ .raw element)
    (hcomment : dropComment? (c :: cs) = none) (h : openingRaw? (c :: cs) = some (element, n)) :
    minifyChars region (c :: cs) =
      ((c :: cs).take n ++ (minifyChars (.raw element) ((c :: cs).drop n)).1,
        (minifyChars (.raw element) ((c :: cs).drop n)).2) := by
  rw [minifyChars]
  · split
    · next rest' h' => rw [hcomment] at h'; cases h'
    · split
      · next element' m h' => rw [h] at h'; cases h'; rfl
      · next h' => rw [h] at h'; cases h'
  · exact hregion

theorem minifyChars_blank (hregion : ∀ element, region ≠ .raw element)
    (hcomment : dropComment? (c :: cs) = none) (hopening : openingRaw? (c :: cs) = none)
    (h : Text.isBlank c = true) :
    minifyChars region (c :: cs) =
      (collapsed (c :: cs.takeWhile Text.isBlank) ::
          (minifyChars region (cs.dropWhile Text.isBlank)).1,
        (minifyChars region (cs.dropWhile Text.isBlank)).2) := by
  rw [minifyChars]
  · split
    · next rest' h' => rw [hcomment] at h'; cases h'
    · split
      · next element' m h' => rw [hopening] at h'; cases h'
      · rw [if_pos h]
  · exact hregion

theorem minifyChars_char (hregion : ∀ element, region ≠ .raw element)
    (hcomment : dropComment? (c :: cs) = none) (hopening : openingRaw? (c :: cs) = none)
    (h : ¬Text.isBlank c = true) :
    minifyChars region (c :: cs) =
      (c :: (minifyChars region cs).1, (minifyChars region cs).2) := by
  rw [minifyChars]
  · split
    · next rest' h' => rw [hcomment] at h'; cases h'
    · split
      · next element' m h' => rw [hopening] at h'; cases h'
      · rw [if_neg h]
  · exact hregion

end Steps

/-- **Induction on a scan from a region**, with a case for each way in which it goes on. -/
theorem minifyChars_induction {motive : Region → List Char → Prop}
    (nil : ∀ region, motive region [])
    (closing : ∀ c cs element n, closingTag? element (c :: cs) = some n →
      motive .markup ((c :: cs).drop n) → motive (.raw element) (c :: cs))
    (raw : ∀ c cs element, closingTag? element (c :: cs) = none →
      motive (.raw element) cs → motive (.raw element) (c :: cs))
    (comment : ∀ c cs region rest, (∀ element, region ≠ .raw element) →
      dropComment? (c :: cs) = some rest → motive region rest → motive region (c :: cs))
    (opening : ∀ c cs region element n, (∀ element, region ≠ .raw element) →
      dropComment? (c :: cs) = none → openingRaw? (c :: cs) = some (element, n) →
      motive (.raw element) ((c :: cs).drop n) → motive region (c :: cs))
    (blank : ∀ c cs region, (∀ element, region ≠ .raw element) →
      dropComment? (c :: cs) = none → openingRaw? (c :: cs) = none → Text.isBlank c = true →
      motive region (cs.dropWhile Text.isBlank) → motive region (c :: cs))
    (char : ∀ c cs region, (∀ element, region ≠ .raw element) →
      dropComment? (c :: cs) = none → openingRaw? (c :: cs) = none → ¬Text.isBlank c = true →
      motive region cs → motive region (c :: cs)) (region : Region) (cs : List Char) :
    motive region cs := by
  refine minifyChars.induct motive nil ?_ ?_ ?_ ?_ ?_ ?_ region cs
  · exact fun c cs element n hclosing _ _ _ => closing c cs element n hclosing
  · exact fun c cs element hclosing _ _ _ => raw c cs element hclosing
  · exact fun c cs region hregion rest => comment c cs region rest hregion
  · exact fun c cs region hregion hcomment element n hopening _ _ _ =>
      opening c cs region element n hregion hcomment hopening
  · exact fun c cs region hregion hcomment hopening hblank _ _ _ =>
      blank c cs region hregion hcomment hopening hblank
  · exact fun c cs region hregion hcomment hopening hblank _ _ _ =>
      char c cs region hregion hcomment hopening hblank

end Hashmark
