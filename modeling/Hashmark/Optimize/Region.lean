import Hashmark.Text.Blank
import Hashmark.Text.Cut

/-!
# Raw elements and the text around them

The text inside `<pre>`, `<textarea>`, `<script>` and `<style>` is kept as it is written. In the
text outside, HTML comments are dropped, but not conditional ones (`<!--[`), and every run of blanks
becomes one line feed if it has one, and else one space. `minifyChars` goes through a text from a
known region and tells in which region the text after it is.
-/

namespace Hashmark

/-- An element whose content is kept as it is written. -/
inductive RawElement where
  | pre
  | textarea
  | script
  | style
  deriving DecidableEq, Repr

namespace RawElement

/-- The raw elements. -/
def all : List RawElement :=
  [.pre, .textarea, .script, .style]

/-- The name of an element in its tags. -/
def tag : RawElement → List Char
  | .pre => ['p', 'r', 'e']
  | .textarea => ['t', 'e', 'x', 't', 'a', 'r', 'e', 'a']
  | .script => ['s', 'c', 'r', 'i', 'p', 't']
  | .style => ['s', 't', 'y', 'l', 'e']

end RawElement

/-- Where a text stands with respect to the raw elements. -/
inductive Region where
  /-- Outside of raw elements. -/
  | markup
  /-- Inside a raw element, up to its closing tag. -/
  | raw (element : RawElement)
  /-- This depends on data, or on nodes that are not known yet. -/
  | unknown
  deriving DecidableEq, Repr

namespace Region

/-- The region of several places, if it is the same at all of them. -/
def common : List Region → Region
  | [] => .unknown
  | region :: regions => if regions.all (· = region) then region else .unknown

end Region

/-! ### Tags -/

/-- Whether a text starts with a lower-case word, letter case aside, and the text after it. -/
def dropWord? : List Char → List Char → Option (List Char)
  | [], cs => some cs
  | w :: ws, c :: cs => if c.toLower = w then dropWord? ws cs else none
  | _ :: _, [] => none

/-- Whether a character ends the name of a tag. -/
def endsTagName (c : Char) : Bool :=
  c == '>' || c == '/' || Text.isBlank c

/-- The length of the start of a tag, from its bracket to the end of its name, if the text starts
with a tag of the element. -/
def tagAt? (opener : List Char) (element : RawElement) (cs : List Char) : Option Nat := do
  let rest ← Text.dropStart? opener cs
  let rest ← dropWord? element.tag rest
  if rest.head?.all endsTagName then some (opener.length + element.tag.length) else none

/-- The start of an opening tag of an element. -/
def openingTag? : RawElement → List Char → Option Nat :=
  tagAt? ['<']

/-- The start of a closing tag of an element. -/
def closingTag? : RawElement → List Char → Option Nat :=
  tagAt? ['<', '/']

theorem tagAt?_pos {opener : List Char} {element : RawElement} {cs : List Char} {n : Nat}
    (h : tagAt? opener element cs = some n) : 0 < n := by
  simp only [tagAt?, Option.bind_eq_bind, Option.bind_eq_some_iff] at h
  obtain ⟨_, _, _, _, h⟩ := h
  split at h <;> cases h
  have : 0 < element.tag.length := by cases element <;> decide
  omega

/-- The element whose opening tag a text starts with, and the length of its start. -/
def openingRaw? (cs : List Char) : Option (RawElement × Nat) :=
  RawElement.all.findSome? fun element => (openingTag? element cs).map (element, ·)

theorem openingRaw?_pos {cs : List Char} {element : RawElement} {n : Nat}
    (h : openingRaw? cs = some (element, n)) : 0 < n := by
  obtain ⟨e, _, he⟩ := List.exists_of_findSome?_eq_some h
  simp only [Option.map_eq_some_iff] at he
  obtain ⟨m, hm, heq⟩ := he
  cases heq
  exact tagAt?_pos hm

/-- Whether a tag of a raw element starts anywhere in a text. -/
def mentionsRawElement : List Char → Bool
  | [] => false
  | c :: cs =>
    (RawElement.all.any fun element =>
      (openingTag? element (c :: cs)).isSome || (closingTag? element (c :: cs)).isSome) ||
      mentionsRawElement cs

/-! ### Comments and blanks -/

/-- The text after a comment, if the text starts with a whole one that is not conditional. -/
def dropComment? (cs : List Char) : Option (List Char) := do
  let rest ← Text.dropStart? ['<', '!', '-', '-'] cs
  if rest.head? = some '[' then none
  else (Text.cut ['-', '-', '>'] rest).map (·.2)

theorem dropComment?_length {cs rest : List Char} (h : dropComment? cs = some rest) :
    rest.length < cs.length := by
  simp only [dropComment?, Option.bind_eq_bind, Option.bind_eq_some_iff] at h
  obtain ⟨body, hbody, h⟩ := h
  split at h
  · cases h
  · simp only [Option.map_eq_some_iff] at h
    obtain ⟨⟨before, after⟩, hcut, rfl⟩ := h
    rw [Text.eq_append_of_dropStart? hbody, Text.eq_append_of_cut hcut]
    simp only [List.length_append, List.length_cons, List.length_nil]
    omega

/-- What a run of blanks becomes. -/
def collapsed (run : List Char) : Char :=
  if run.contains '\n' then '\n' else ' '

/-- A text in a known region without comments and long blanks, and the region after it. -/
def minifyChars (region : Region) (cs : List Char) : List Char × Region :=
  match cs with
  | [] => ([], region)
  | c :: tail =>
    match region with
    | .raw element =>
      match _h : closingTag? element (c :: tail) with
      | some n =>
        let (rest, last) := minifyChars .markup ((c :: tail).drop n)
        ((c :: tail).take n ++ rest, last)
      | none =>
        let (rest, last) := minifyChars region tail
        (c :: rest, last)
    | region =>
      match _h : dropComment? (c :: tail) with
      | some rest => minifyChars region rest
      | none =>
        match _h : openingRaw? (c :: tail) with
        | some (element, n) =>
          let (rest, last) := minifyChars (.raw element) ((c :: tail).drop n)
          ((c :: tail).take n ++ rest, last)
        | none =>
          if Text.isBlank c then
            let (rest, last) := minifyChars region (tail.dropWhile Text.isBlank)
            (collapsed (c :: tail.takeWhile Text.isBlank) :: rest, last)
          else
            let (rest, last) := minifyChars region tail
            (c :: rest, last)
termination_by cs.length
decreasing_by
  · have := tagAt?_pos ‹_›; simp only [List.length_drop, List.length_cons]; omega
  · simp
  · exact dropComment?_length ‹_›
  · have := openingRaw?_pos ‹_›; simp only [List.length_drop, List.length_cons]; omega
  · have := (List.dropWhile_suffix (l := tail) Text.isBlank).length_le
    simp only [List.length_cons]; omega
  · simp

/-- A text minified from a region; where the region is not known, the text stays as it is. -/
def minifyText (region : Region) (text : String) : String × Region :=
  match region with
  | .unknown => (text, .unknown)
  | region =>
    let (cs, last) := minifyChars region text.toList
    (String.ofList cs, last)

end Hashmark
