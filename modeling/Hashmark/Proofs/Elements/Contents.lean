import Hashmark.Proofs.Elements.Reading

/-!
# What contents tell

The contents of the raw elements of a page have as many characters as are found within raw elements
(`length_contents`). Two pages that end both within a raw element, or both outside of one, are read
in the same way if their raw elements have the same contents (`marks_eq_of_contents`).
-/

namespace Hashmark

/-! ### Counting -/

/-- Whether a thing that is found is a character. -/
def Mark.isChar : Mark → Bool
  | .char _ => true
  | .opening | .closing => false

/-- The number of characters that are found. -/
def charCount (ms : List Mark) : Nat :=
  ms.countP Mark.isChar

section Count

variable {ms more : List Mark} {cs : List Char} {region : Region}

@[simp] theorem charCount_nil : charCount [] = 0 := rfl

@[simp] theorem charCount_char (c : Char) : charCount (.char c :: ms) = charCount ms + 1 :=
  List.countP_cons_of_pos rfl

@[simp] theorem charCount_opening : charCount (.opening :: ms) = charCount ms :=
  List.countP_cons_of_neg (by decide)

@[simp] theorem charCount_closing : charCount (.closing :: ms) = charCount ms :=
  List.countP_cons_of_neg (by decide)

@[simp] theorem charCount_append (ms more : List Mark) :
    charCount (ms ++ more) = charCount ms + charCount more :=
  List.countP_append

@[simp] theorem charCount_chars (cs : List Char) : charCount (cs.map .char) = cs.length := by
  induction cs with
  | nil => rfl
  | cons c cs ih => rw [List.map_cons, charCount_char, ih, List.length_cons]

/-- No more characters are found than there are. -/
theorem charCount_marks_le (region : Region) (cs : List Char) :
    charCount (marks region cs) ≤ cs.length := by
  induction region, cs using marks_induction with
  | nil region => rw [marks_nil, charCount_nil]; exact Nat.zero_le _
  | closing c cs element n hclosing ih =>
    rw [marks_closing hclosing, charCount_closing]
    rw [List.length_drop] at ih
    omega
  | raw c cs element hclosing ih =>
    rw [marks_raw hclosing, charCount_char, List.length_cons]
    omega
  | comment c cs region rest hregion hcomment ih =>
    rw [marks_comment hregion hcomment]
    have hless := dropComment?_length hcomment
    omega
  | opening c cs region element n hregion hcomment hopening ih =>
    rw [marks_opening hregion hcomment hopening, charCount_opening]
    rw [List.length_drop] at ih
    omega
  | char c cs region hregion hcomment hopening ih =>
    rw [marks_char hregion hcomment hopening, List.length_cons]
    omega

end Count

/-! ### Reading from contents -/

/-- Marks in the order in which they can be found: a raw element opens outside of raw elements, and
has characters and closes within. The first two arguments tell whether the marks start and end within
a raw element. -/
inductive Alternating : Bool → Bool → List Mark → Prop where
  | nil (inside : Bool) : Alternating inside inside []
  | opening {last : Bool} {ms : List Mark} :
      Alternating true last ms → Alternating false last (.opening :: ms)
  | char {last : Bool} {ms : List Mark} (c : Char) :
      Alternating true last ms → Alternating true last (.char c :: ms)
  | closing {last : Bool} {ms : List Mark} :
      Alternating false last ms → Alternating true last (.closing :: ms)

/-- Whether a region is within a raw element. -/
def Region.isRaw : Region → Bool
  | .raw _ => true
  | .markup | .unknown => false

theorem Region.isRaw_of_ne {region : Region} (h : ∀ element, region ≠ .raw element) :
    region.isRaw = false := by
  cases region with
  | raw element => exact absurd rfl (h element)
  | markup | unknown => rfl

theorem alternating_marks (region : Region) (cs : List Char) :
    Alternating region.isRaw (after region cs).isRaw (marks region cs) := by
  induction region, cs using marks_induction with
  | nil region => rw [marks_nil, after_nil]; exact .nil _
  | closing c cs element n hclosing ih =>
    rw [marks_closing hclosing, after_closing hclosing]
    exact .closing ih
  | raw c cs element hclosing ih =>
    rw [marks_raw hclosing, after_raw hclosing]
    exact .char c ih
  | comment c cs region rest hregion hcomment ih =>
    rwa [marks_comment hregion hcomment, after_comment hregion hcomment]
  | opening c cs region element n hregion hcomment hopening ih =>
    rw [marks_opening hregion hcomment hopening, after_opening hregion hcomment hopening,
      Region.isRaw_of_ne hregion]
    exact .opening ih
  | char c cs region hregion hcomment hopening ih =>
    rwa [marks_char hregion hcomment hopening, after_char hregion hcomment hopening]

namespace Alternating

variable {inside last : Bool} {ms ms' : List Mark}

theorem append {mid : Bool} (h : Alternating inside mid ms) (h' : Alternating mid last ms') :
    Alternating inside last (ms ++ ms') := by
  induction h with
  | nil => exact h'
  | opening _ ih => exact .opening (ih h')
  | char c _ ih => exact .char c (ih h')
  | closing _ ih => exact .closing (ih h')

theorem collect_outside (h : Alternating false last ms) : (collect ms).1 = [] := by
  cases h <;> rfl

/-- Marks from outside of raw elements into one have an opening. -/
theorem collect_entering (h : Alternating false true ms) : (collect ms).2 ≠ [] := by
  cases h with
  | opening h => simp [collect]

/-- What is collected has all characters. -/
theorem length_collect (h : Alternating inside last ms) :
    (collect ms).1.length + (collect ms).2.flatten.length = charCount ms := by
  induction h with
  | nil => rfl
  | opening h ih =>
    rw [collect, charCount_opening, ← ih, List.flatten_cons, List.length_append, List.length_nil,
      Nat.zero_add]
  | char c h ih =>
    rw [collect, charCount_char, ← ih, List.length_cons]
    exact Nat.succ_add _ _
  | closing h ih => rwa [collect, charCount_closing, ← h.collect_outside]

/-- **Contents tell the marks.** -/
theorem eq_of_collect (h : Alternating inside last ms) (h' : Alternating inside last ms')
    (heq : collect ms = collect ms') : ms = ms' := by
  induction h generalizing ms' with
  | nil inside =>
    cases h' with
    | nil => rfl
    | opening | char => simp [collect] at heq
    | closing h' => exact absurd (congrArg Prod.snd heq).symm h'.collect_entering
  | opening h ih =>
    cases h' with
    | nil => simp [collect] at heq
    | opening h' =>
      simp only [collect, Prod.mk.injEq, List.cons.injEq, true_and] at heq
      rw [ih h' (Prod.ext heq.1 heq.2)]
  | char c h ih =>
    cases h' with
    | nil | closing => simp [collect] at heq
    | char c' h' =>
      simp only [collect, Prod.mk.injEq, List.cons.injEq] at heq
      rw [heq.1.1, ih h' (Prod.ext heq.1.2 heq.2)]
  | closing h ih =>
    cases h' with
    | nil => exact absurd (congrArg Prod.snd heq) h.collect_entering
    | char => simp [collect] at heq
    | closing h' =>
      simp only [collect, Prod.mk.injEq, true_and] at heq
      rw [ih h' (Prod.ext (h.collect_outside.trans h'.collect_outside.symm) heq)]

end Alternating

/-- **Characters of contents.** The contents of the raw elements of a page have as many characters as
are found within raw elements. -/
theorem length_contents (cs : List Char) :
    (contents cs).flatten.length = charCount (marks .markup cs) := by
  have halternating := alternating_marks .markup cs
  rw [← halternating.length_collect, halternating.collect_outside, List.length_nil, Nat.zero_add,
    contents]

/-- Pages whose raw elements have the same contents are read in the same way, if the raw elements at
their ends are both open or both closed. -/
theorem marks_eq_of_contents {cs ds : List Char} {last : Bool} (h : contents cs = contents ds)
    (hcs : Alternating false last (marks .markup cs))
    (hds : Alternating false last (marks .markup ds)) : marks .markup cs = marks .markup ds :=
  hcs.eq_of_collect hds (Prod.ext (hcs.collect_outside.trans hds.collect_outside.symm) h)

end Hashmark
