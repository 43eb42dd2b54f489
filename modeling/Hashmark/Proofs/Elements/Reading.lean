import Hashmark.Proofs.Optimizing.Visibility

/-!
# Reading raw elements

How the raw elements of a page are found: a scan from left to right that skips comments outside of
raw elements and tells where a raw element opens, what it holds, and where it closes (`marks`). The
contents of the raw elements of a page are read off that (`contents`).

A text is read on its own if what comes after it changes nothing of what was read, and is read as if
it stood alone (`ReadsAlone`). A text without brackets always is (`readsAlone_of_not_mem`).
-/

namespace Hashmark

/-- A thing that is found in a text. -/
inductive Mark where
  /-- A raw element opens. -/
  | opening
  /-- A character inside of a raw element. -/
  | char (c : Char)
  /-- A raw element closes. -/
  | closing
  deriving DecidableEq, Repr

/-- What is found in a text that is read from a region on. -/
def marks (region : Region) (cs : List Char) : List Mark :=
  match cs with
  | [] => []
  | c :: tail =>
    match region with
    | .raw element =>
      match _h : closingTag? element (c :: tail) with
      | some n => .closing :: marks .markup ((c :: tail).drop n)
      | none => .char c :: marks region tail
    | region =>
      match _h : dropComment? (c :: tail) with
      | some rest => marks region rest
      | none =>
        match _h : openingRaw? (c :: tail) with
        | some (element, n) => .opening :: marks (.raw element) ((c :: tail).drop n)
        | none => marks region tail
termination_by cs.length
decreasing_by
  · have := tagAt?_pos ‹_›; simp only [List.length_drop, List.length_cons]; omega
  · simp
  · exact dropComment?_length ‹_›
  · have := openingRaw?_pos ‹_›; simp only [List.length_drop, List.length_cons]; omega
  · simp

/-- The region after a text. -/
def after (region : Region) (cs : List Char) : Region :=
  (minifyChars region cs).2

/-- The characters up to the end of the first content, and the contents of the elements that open
after it. -/
def collect : List Mark → List Char × List (List Char)
  | [] => ([], [])
  | .char c :: ms => (c :: (collect ms).1, (collect ms).2)
  | .opening :: ms => ([], (collect ms).1 :: (collect ms).2)
  | .closing :: ms => ([], (collect ms).2)

/-- The contents of the raw elements of a page, in order. -/
def contents (cs : List Char) : List (List Char) :=
  (collect (marks .markup cs)).2

/-! ### Steps -/

section Steps

variable {region : Region} {element : RawElement} {c : Char} {cs rest : List Char} {n : Nat}

@[simp] theorem marks_nil : marks region [] = [] := by
  rw [marks]

theorem marks_closing (h : closingTag? element (c :: cs) = some n) :
    marks (.raw element) (c :: cs) = .closing :: marks .markup ((c :: cs).drop n) := by
  rw [marks]
  split
  · next m hm => rw [h] at hm; cases hm; rfl
  · next hm => rw [h] at hm; cases hm

theorem marks_raw (h : closingTag? element (c :: cs) = none) :
    marks (.raw element) (c :: cs) = .char c :: marks (.raw element) cs := by
  rw [marks]
  split
  · next m hm => rw [h] at hm; cases hm
  · rfl

theorem marks_comment (hregion : ∀ element, region ≠ .raw element)
    (h : dropComment? (c :: cs) = some rest) : marks region (c :: cs) = marks region rest := by
  rw [marks]
  · split
    · next rest' h' => rw [h] at h'; cases h'; rfl
    · next h' => rw [h] at h'; cases h'
  · exact hregion

theorem marks_opening (hregion : ∀ element, region ≠ .raw element)
    (hcomment : dropComment? (c :: cs) = none) (h : openingRaw? (c :: cs) = some (element, n)) :
    marks region (c :: cs) = .opening :: marks (.raw element) ((c :: cs).drop n) := by
  rw [marks]
  · split
    · next rest' h' => rw [hcomment] at h'; cases h'
    · split
      · next element' m h' => rw [h] at h'; cases h'; rfl
      · next h' => rw [h] at h'; cases h'
  · exact hregion

theorem marks_char (hregion : ∀ element, region ≠ .raw element)
    (hcomment : dropComment? (c :: cs) = none) (hopening : openingRaw? (c :: cs) = none) :
    marks region (c :: cs) = marks region cs := by
  rw [marks]
  · split
    · next rest' h' => rw [hcomment] at h'; cases h'
    · split
      · next element' m h' => rw [hopening] at h'; cases h'
      · rfl
  · exact hregion

/-- **Induction on the reading of a text**, with a case for each way in which it goes on. -/
theorem marks_induction {motive : Region → List Char → Prop}
    (nil : ∀ region, motive region [])
    (closing : ∀ c cs element n, closingTag? element (c :: cs) = some n →
      motive .markup ((c :: cs).drop n) → motive (.raw element) (c :: cs))
    (raw : ∀ c cs element, closingTag? element (c :: cs) = none →
      motive (.raw element) cs → motive (.raw element) (c :: cs))
    (comment : ∀ c cs region rest, (∀ element, region ≠ .raw element) →
      dropComment? (c :: cs) = some rest → motive region rest → motive region (c :: cs))
    (opening : ∀ c cs region element n, (∀ element, region ≠ .raw element) →
      dropComment? (c :: cs) = none → openingRaw? (c :: cs) = some (element, n) →
      motive (.raw element) ((c :: cs).drop n) → motive region (c :: cs))
    (char : ∀ c cs region, (∀ element, region ≠ .raw element) →
      dropComment? (c :: cs) = none → openingRaw? (c :: cs) = none →
      motive region cs → motive region (c :: cs)) (region : Region) (cs : List Char) :
    motive region cs := by
  refine marks.induct motive nil closing raw ?_ ?_ char region cs
  · exact fun c cs region hregion rest => comment c cs region rest hregion
  · exact fun c cs region hregion hcomment element n =>
      opening c cs region element n hregion hcomment

@[simp] theorem after_nil : after region [] = region := by
  rw [after, minifyChars_nil]

theorem after_closing (h : closingTag? element (c :: cs) = some n) :
    after (.raw element) (c :: cs) = after .markup ((c :: cs).drop n) := by
  rw [after, minifyChars_closing h, after]

theorem after_raw (h : closingTag? element (c :: cs) = none) :
    after (.raw element) (c :: cs) = after (.raw element) cs := by
  rw [after, minifyChars_raw h, after]

theorem after_comment (hregion : ∀ element, region ≠ .raw element)
    (h : dropComment? (c :: cs) = some rest) : after region (c :: cs) = after region rest := by
  rw [after, minifyChars_comment hregion h, after]

theorem after_opening (hregion : ∀ element, region ≠ .raw element)
    (hcomment : dropComment? (c :: cs) = none) (h : openingRaw? (c :: cs) = some (element, n)) :
    after region (c :: cs) = after (.raw element) ((c :: cs).drop n) := by
  rw [after, minifyChars_opening hregion hcomment h, after]

theorem openingRaw?_of_ne (h : c ≠ '<') : openingRaw? (c :: cs) = none := by
  refine List.findSome?_eq_none_iff.2 fun element _ => ?_
  simp [openingTag?, tagAt?, Text.dropStart?, Ne.symm h]

theorem closingTag?_of_ne (h : c ≠ '<') : closingTag? element (c :: cs) = none := by
  simp [closingTag?, tagAt?, Text.dropStart?, Ne.symm h]

theorem after_dropWhile (hregion : ∀ element, region ≠ .raw element) (cs : List Char) :
    after region (cs.dropWhile Text.isBlank) = after region cs := by
  cases cs with
  | nil => rfl
  | cons c cs =>
    by_cases hc : Text.isBlank c = true
    · have hopening : openingRaw? (c :: cs) = none :=
        openingRaw?_of_ne fun h => absurd hc (h ▸ by decide)
      rw [List.dropWhile_cons_of_pos hc, after, after,
        minifyChars_blank hregion (dropComment?_blank hc) hopening hc]
    · rw [List.dropWhile_cons_of_neg hc]

/-- A character that starts nothing does not change the region. -/
theorem after_char (hregion : ∀ element, region ≠ .raw element)
    (hcomment : dropComment? (c :: cs) = none) (hopening : openingRaw? (c :: cs) = none) :
    after region (c :: cs) = after region cs := by
  by_cases hc : Text.isBlank c = true
  · rw [after, minifyChars_blank hregion hcomment hopening hc]
    exact after_dropWhile hregion cs
  · rw [after, minifyChars_char hregion hcomment hopening hc, after]

end Steps

/-! ### Texts that are read on their own -/

/-- **Reading on its own.** What comes after a text changes nothing of what is read in it, and is
read from the region in which the text ends. -/
def ReadsAlone (region : Region) (cs : List Char) : Prop :=
  ∀ rest, marks region (cs ++ rest) = marks region cs ++ marks (after region cs) rest

theorem readsAlone_nil (region : Region) : ReadsAlone region [] :=
  fun rest => by simp

/-- The marks of characters that start no tag. -/
def charMarks (region : Region) (cs : List Char) : List Mark :=
  match region with
  | .raw _ => cs.map .char
  | .markup | .unknown => []

theorem not_raw_cases (region : Region) :
    (∃ element, region = .raw element) ∨ ∀ element, region ≠ .raw element := by
  cases region with
  | raw element => exact .inl ⟨element, rfl⟩
  | markup | unknown => exact .inr fun _ h => nomatch h

theorem charMarks_of_ne {region : Region} (h : ∀ element, region ≠ .raw element)
    (cs : List Char) : charMarks region cs = [] := by
  cases region with
  | raw element => exact absurd rfl (h element)
  | markup | unknown => rfl

/-- A text without brackets is read character by character. -/
theorem marks_append_of_not_mem (region : Region) {cs : List Char} (h : '<' ∉ cs)
    (rest : List Char) : marks region (cs ++ rest) = charMarks region cs ++ marks region rest := by
  induction cs with
  | nil => cases region <;> rfl
  | cons c cs ih =>
    simp only [List.mem_cons, not_or] at h
    have hc : c ≠ '<' := Ne.symm h.1
    rw [List.cons_append]
    obtain ⟨element, rfl⟩ | hregion := not_raw_cases region
    · rw [marks_raw (closingTag?_of_ne hc), ih h.2]
      rfl
    · rw [marks_char hregion (dropComment?_of_ne hc) (openingRaw?_of_ne hc), ih h.2,
        charMarks_of_ne hregion, charMarks_of_ne hregion]

theorem after_of_not_mem (region : Region) {cs : List Char} (h : '<' ∉ cs) :
    after region cs = region := by
  induction cs with
  | nil => exact after_nil
  | cons c cs ih =>
    simp only [List.mem_cons, not_or] at h
    have hc : c ≠ '<' := Ne.symm h.1
    obtain ⟨element, rfl⟩ | hregion := not_raw_cases region
    · rw [after_raw (closingTag?_of_ne hc), ih h.2]
    · rw [after_char hregion (dropComment?_of_ne hc) (openingRaw?_of_ne hc), ih h.2]

/-- **Texts without brackets** are read on their own. -/
theorem readsAlone_of_not_mem (region : Region) {cs : List Char} (h : '<' ∉ cs) :
    ReadsAlone region cs := by
  intro rest
  have hself := marks_append_of_not_mem region h []
  rw [List.append_nil, marks_nil, List.append_nil] at hself
  rw [marks_append_of_not_mem region h, hself, after_of_not_mem region h]

/-- A text without tags of raw elements does not change the region. -/
theorem after_of_mentionsRawElement (region : Region) {cs : List Char}
    (h : mentionsRawElement cs = false) : after region cs = region := by
  obtain ⟨element, rfl⟩ | hregion := not_raw_cases region
  · rw [after, minifyChars_inside element h]
  · exact (squeeze_minifyChars_visible hregion h).2

theorem minifyText_of_known {region : Region} (h : region ≠ .unknown) (text : String) :
    (minifyText region text).2 = after region text.toList := by
  unfold minifyText
  split
  · exact absurd rfl h
  · rfl

theorem minifyText_region {text : String} (h : mentionsRawElement text.toList = false)
    (region : Region) : (minifyText region text).2 = region := by
  unfold minifyText
  split
  · rfl
  · exact after_of_mentionsRawElement region h

end Hashmark
