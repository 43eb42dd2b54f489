import Hashmark.Proofs.Optimizing.Minification

/-!
# Comments and blanks of a text

What a reader of a page sees of a text: its comments are dropped from left to right (`visible`), and
every run of blanks counts as one space (`squeeze`). Blanks do not matter to where comments begin and
end, so what is visible of a text depends on the squeezed text only (`squeeze_visible_congr`).

A text that opens no comment once its own are dropped (`SelfContained`) is seen the same in every
place: what is visible of it and of what comes after it can be told apart (`visible_append`).
-/

namespace Hashmark

/-! ### Definitions -/

/-- A text without its comments, dropped from left to right. -/
def visible (cs : List Char) : List Char :=
  match cs with
  | [] => []
  | c :: tail =>
    match _h : dropComment? (c :: tail) with
    | some rest => visible rest
    | none => c :: visible tail
termination_by cs.length
decreasing_by
  · exact dropComment?_length _h
  · simp

/-- Puts a character in front of a squeezed text. -/
def squeezeOnto (c : Char) (cs : List Char) : List Char :=
  if Text.isBlank c then
    if cs.head? = some ' ' then cs else ' ' :: cs
  else c :: cs

/-- A text with every run of blanks as one space. -/
def squeeze (cs : List Char) : List Char :=
  cs.foldr squeezeOnto []

/-- Whether a text starts with a pattern that no bracket follows, or is cut off inside of it. -/
def mayStart : List Char → List Char → Bool
  | [], cs => cs.head? != some '['
  | _ :: _, [] => true
  | p :: ps, c :: cs => p == c && mayStart ps cs

/-- Whether a text that is not empty begins with the start of a comment, as far as it goes. -/
def opensComment (cs : List Char) : Bool :=
  !cs.isEmpty && mayStart ['<', '!', '-', '-'] cs

/-- Whether no comment starts anywhere in a text or at its end. -/
def opensNone : List Char → Bool
  | [] => true
  | c :: cs => !opensComment (c :: cs) && opensNone cs

/-- Whether a text has no whole comment. -/
def noComment : List Char → Bool
  | [] => true
  | c :: cs => (dropComment? (c :: cs)).isNone && noComment cs

/-- Whether a text opens no comment once its own comments are dropped. -/
def SelfContained (text : String) : Prop :=
  opensNone (visible text.toList) = true

instance (text : String) : Decidable (SelfContained text) :=
  inferInstanceAs (Decidable (_ = _))

/-! ### What is visible -/

section Visible

variable {c : Char} {cs rest : List Char}

@[simp] theorem visible_nil : visible [] = [] := by
  rw [visible]

theorem visible_comment (h : dropComment? (c :: cs) = some rest) :
    visible (c :: cs) = visible rest := by
  rw [visible]
  split
  · next rest' h' => rw [h] at h'; cases h'; rfl
  · next h' => rw [h] at h'; cases h'

theorem visible_char (h : dropComment? (c :: cs) = none) : visible (c :: cs) = c :: visible cs := by
  rw [visible]
  split
  · next rest' h' => rw [h] at h'; cases h'
  · rfl

/-- A comment starts with a bracket. -/
theorem dropComment?_of_ne (h : c ≠ '<') : dropComment? (c :: cs) = none := by
  cases hd : dropComment? (c :: cs) with
  | none => rfl
  | some rest =>
    obtain ⟨content, body, heq, -, -⟩ := dropComment?_eq_some.1 hd
    exact absurd (List.cons.inj heq).1 h

/-- **Induction on what is visible of a text**: a comment is skipped, any other character stays. -/
theorem visible_induction {motive : List Char → Prop} (nil : motive [])
    (comment : ∀ c cs rest, dropComment? (c :: cs) = some rest → motive rest → motive (c :: cs))
    (char : ∀ c cs, dropComment? (c :: cs) = none → motive cs → motive (c :: cs))
    (cs : List Char) : motive cs :=
  visible.induct motive nil comment char cs

/-- A text without whole comments is visible as it is. -/
theorem visible_of_noComment (h : noComment cs = true) : visible cs = cs := by
  induction cs with
  | nil => exact visible_nil
  | cons c cs ih =>
    simp only [noComment, Bool.and_eq_true, Option.isNone_iff_eq_none] at h
    rw [visible_char h.1, ih h.2]

theorem length_visible_le (cs : List Char) : (visible cs).length ≤ cs.length := by
  induction cs using visible_induction with
  | nil => simp
  | comment c cs rest h ih =>
    have := dropComment?_length h
    rw [visible_comment h]
    omega
  | char c cs h ih =>
    rw [visible_char h]
    simpa using ih

/-- A text that is visible as it is has no whole comment. -/
theorem noComment_of_visible (h : visible cs = cs) : noComment cs = true := by
  induction cs with
  | nil => rfl
  | cons c cs ih =>
    cases hd : dropComment? (c :: cs) with
    | none =>
      rw [visible_char hd] at h
      simpa [noComment, hd] using ih (List.cons.inj h).2
    | some rest =>
      have hlength := length_visible_le rest
      have hshorter := dropComment?_length hd
      rw [← visible_comment hd, h] at hlength
      omega

end Visible

/-! ### Squeezing -/

section Squeeze

variable {c : Char} {cs ds : List Char}

theorem squeezeOnto_blank (h : Text.isBlank c = true) :
    squeezeOnto c cs = if cs.head? = some ' ' then cs else ' ' :: cs :=
  if_pos h

theorem squeezeOnto_char (h : ¬Text.isBlank c = true) : squeezeOnto c cs = c :: cs :=
  if_neg h

theorem squeeze_cons (c : Char) (cs : List Char) :
    squeeze (c :: cs) = squeezeOnto c (squeeze cs) := rfl

theorem head?_squeezeOnto_blank (h : Text.isBlank c = true) :
    (squeezeOnto c cs).head? = some ' ' := by
  rw [squeezeOnto_blank h]
  split
  · assumption
  · rfl

/-- One blank after the other is one blank. -/
theorem squeezeOnto_squeezeOnto {b : Char} (hb : Text.isBlank b = true)
    (hc : Text.isBlank c = true) (cs : List Char) :
    squeezeOnto b (squeezeOnto c cs) = squeezeOnto c cs := by
  rw [squeezeOnto_blank hb, if_pos (head?_squeezeOnto_blank hc)]

/-- Blanks are all the same. -/
theorem squeezeOnto_congr {b : Char} (hb : Text.isBlank b = true) (hc : Text.isBlank c = true) :
    squeezeOnto b = squeezeOnto c := by
  funext cs
  rw [squeezeOnto_blank hb, squeezeOnto_blank hc]

theorem foldr_squeezeOnto (c : Char) (cs acc : List Char) :
    (squeezeOnto c cs).foldr squeezeOnto acc = squeezeOnto c (cs.foldr squeezeOnto acc) := by
  by_cases hc : Text.isBlank c = true
  · have hspace : Text.isBlank ' ' = true := by decide
    rw [squeezeOnto_blank hc]
    split
    · next hhead =>
      obtain ⟨cs', rfl⟩ : ∃ cs', cs = ' ' :: cs' := List.head?_eq_some_iff.1 hhead
      rw [List.foldr_cons, squeezeOnto_squeezeOnto hc hspace]
    · rw [List.foldr_cons, squeezeOnto_congr hspace hc]
  · rw [squeezeOnto_char hc, List.foldr_cons]

/-- A text counts only by what it is squeezed to. -/
theorem foldr_squeeze (cs acc : List Char) :
    (squeeze cs).foldr squeezeOnto acc = cs.foldr squeezeOnto acc := by
  induction cs with
  | nil => rfl
  | cons c cs ih => rw [squeeze_cons, foldr_squeezeOnto, ih, List.foldr_cons]

theorem squeeze_append (cs ds : List Char) :
    squeeze (cs ++ ds) = (squeeze cs).foldr squeezeOnto (squeeze ds) := by
  rw [foldr_squeeze, squeeze, List.foldr_append, squeeze]

/-- Texts that are squeezed to the same stay so when texts that are squeezed to the same are put
behind them. -/
theorem squeeze_append_congr {cs' ds' : List Char} (h : squeeze cs = squeeze ds)
    (h' : squeeze cs' = squeeze ds') : squeeze (cs ++ cs') = squeeze (ds ++ ds') := by
  rw [squeeze_append, squeeze_append, h, h']

/-- A run of blanks in front of a text. -/
theorem squeeze_run {run : List Char} (hc : Text.isBlank c = true)
    (hrun : ∀ b ∈ run, Text.isBlank b = true) :
    squeeze (c :: (run ++ cs)) = squeeze (c :: cs) := by
  induction run with
  | nil => rfl
  | cons b run ih =>
    obtain ⟨hb, hrun⟩ := List.forall_mem_cons.1 hrun
    rw [← ih hrun, squeeze_cons, List.cons_append, squeeze_cons b, squeezeOnto_congr hb hc,
      squeezeOnto_squeezeOnto hc hc, squeeze_cons]

theorem isBlank_collapsed (run : List Char) : Text.isBlank (collapsed run) = true := by
  unfold collapsed
  split <;> decide

/-- What a run of blanks becomes counts as the run does. -/
theorem squeeze_collapsed {run : List Char} (hc : Text.isBlank c = true)
    (hrun : ∀ b ∈ run, Text.isBlank b = true) (h : squeeze cs = squeeze ds) (blanks : List Char) :
    squeeze (collapsed blanks :: cs) = squeeze (c :: (run ++ ds)) := by
  rw [squeeze_run hc hrun, squeeze_cons, squeeze_cons, h,
    squeezeOnto_congr (isBlank_collapsed blanks) hc]

/-! ### Comments of a squeezed text -/

theorem squeeze_eq_nil (h : squeeze cs = []) : cs = [] := by
  cases cs with
  | nil => rfl
  | cons c cs =>
    by_cases hc : Text.isBlank c = true
    · have := @head?_squeezeOnto_blank c (squeeze cs) hc
      rw [← squeeze_cons, h] at this
      cases this
    · rw [squeeze_cons, squeezeOnto_char hc] at h
      cases h

/-- Squeezing keeps the first character, unless it is a blank. -/
theorem head?_squeeze {d : Char} (hd : ¬Text.isBlank d = true) :
    (squeeze cs).head? = some d ↔ cs.head? = some d := by
  cases cs with
  | nil => rfl
  | cons c cs =>
    rw [squeeze_cons]
    by_cases hc : Text.isBlank c = true
    · rw [head?_squeezeOnto_blank hc]
      constructor <;> rintro h <;> cases h
      · exact absurd (by decide) hd
      · exact absurd hc hd
    · rw [squeezeOnto_char hc]
      rfl

/-- Whether a pattern has no blanks. -/
def NoBlanks (pattern : List Char) : Prop :=
  ∀ p ∈ pattern, ¬Text.isBlank p = true

instance (pattern : List Char) : Decidable (NoBlanks pattern) :=
  List.decidableBAll _ pattern

/-- A pattern without blanks is found in a squeezed text where it is in the text. -/
theorem dropStart?_squeeze {pattern : List Char} (hp : NoBlanks pattern)
    (cs : List Char) :
    Text.dropStart? pattern (squeeze cs) = (Text.dropStart? pattern cs).map squeeze := by
  induction pattern generalizing cs with
  | nil => rfl
  | cons p ps ih =>
    obtain ⟨hp, hps⟩ := List.forall_mem_cons.1 hp
    cases cs with
    | nil => rfl
    | cons c cs =>
      rw [squeeze_cons]
      by_cases hc : Text.isBlank c = true
      · have hne : p ≠ c := fun h => hp (h ▸ hc)
        have hspace : p ≠ ' ' := fun h => hp (h ▸ by decide)
        obtain ⟨ds, hds⟩ := List.head?_eq_some_iff.1 (@head?_squeezeOnto_blank c (squeeze cs) hc)
        rw [hds]
        simp [Text.dropStart?, hne, hspace]
      · rw [squeezeOnto_char hc]
        simp only [Text.dropStart?]
        split
        · exact ih hps cs
        · rfl

/-- A pattern without blanks does not start at a blank. -/
theorem cut_blank {pattern : List Char} (hne : pattern ≠ [])
    (hp : NoBlanks pattern) (hc : Text.isBlank c = true) :
    Text.cut pattern (c :: cs) = (Text.cut pattern cs).map fun (before, rest) =>
      (c :: before, rest) := by
  have hnone : Text.dropStart? pattern (c :: cs) = none := by
    cases pattern with
    | nil => exact absurd rfl hne
    | cons p ps =>
      have : p ≠ c := fun h => hp p (by simp) (h ▸ hc)
      simp [Text.dropStart?, this]
  simp only [Text.cut, hnone]

/-- What comes after a pattern without blanks, in a squeezed text. -/
theorem cut_squeeze {pattern : List Char} (hne : pattern ≠ [])
    (hp : NoBlanks pattern) (cs : List Char) :
    (Text.cut pattern (squeeze cs)).map Prod.snd =
      (Text.cut pattern cs).map fun found => squeeze found.2 := by
  induction cs with
  | nil =>
    cases pattern with
    | nil => exact absurd rfl hne
    | cons p ps => rfl
  | cons c cs ih =>
    by_cases hc : Text.isBlank c = true
    · have hblank : ∀ {b : Char} {ds : List Char}, Text.isBlank b = true →
          (Text.cut pattern (b :: ds)).map Prod.snd = (Text.cut pattern ds).map Prod.snd := by
        intro b ds hb
        rw [cut_blank hne hp hb, Option.map_map]
        rfl
      have hgoal : (Text.cut pattern (squeeze (c :: cs))).map Prod.snd =
          (Text.cut pattern (squeeze cs)).map Prod.snd := by
        rw [squeeze_cons, squeezeOnto_blank hc]
        split
        · rfl
        · exact hblank (by decide)
      rw [hgoal, ih, cut_blank hne hp hc, Option.map_map]
      rfl
    · have hstart := dropStart?_squeeze hp (c :: cs)
      rw [squeeze_cons, squeezeOnto_char hc] at hstart ⊢
      cases hd : Text.dropStart? pattern (c :: cs) with
      | some rest =>
        rw [hd] at hstart
        simp [Text.cut, hd, hstart]
      | none =>
        rw [hd] at hstart
        simp only [Text.cut, hd, hstart, Option.map_none, Option.map_map]
        exact ih

/-- **Blanks do not matter to comments.** A squeezed text starts with a comment exactly if the text
does, and the text after it is squeezed. -/
theorem dropComment?_squeeze (cs : List Char) :
    dropComment? (squeeze cs) = (dropComment? cs).map squeeze := by
  simp only [dropComment?, Option.bind_eq_bind]
  rw [dropStart?_squeeze (by decide)]
  cases Text.dropStart? ['<', '!', '-', '-'] cs with
  | none => rfl
  | some content =>
    simp only [Option.map_some, Option.bind_some, head?_squeeze (d := '[') (by decide)]
    split
    · rfl
    · rw [cut_squeeze (by simp) (by decide), Option.map_map]
      rfl

/-- What is visible of a squeezed text. -/
theorem squeeze_visible_squeeze (cs : List Char) :
    squeeze (visible (squeeze cs)) = squeeze (visible cs) := by
  induction cs using visible_induction with
  | nil => rfl
  | comment c cs rest hcomment ih =>
    have hsqueezed := dropComment?_squeeze (c :: cs)
    rw [hcomment, Option.map_some] at hsqueezed
    obtain ⟨d, ds, hds⟩ : ∃ d ds, squeeze (c :: cs) = d :: ds := by
      cases h : squeeze (c :: cs) with
      | nil => cases squeeze_eq_nil h
      | cons d ds => exact ⟨d, ds, rfl⟩
    rw [hds] at hsqueezed ⊢
    rw [visible_comment hsqueezed, visible_comment hcomment, ih]
  | char c cs hcomment ih =>
    rw [visible_char hcomment, squeeze_cons, squeeze_cons, ← ih]
    by_cases hc : Text.isBlank c = true
    · have hspace : Text.isBlank ' ' = true := by decide
      have hvisible : ∀ ds, visible (' ' :: ds) = ' ' :: visible ds := fun ds =>
        visible_char (dropComment?_of_ne (by decide))
      rw [squeezeOnto_blank hc]
      split
      · next hhead =>
        -- the text goes on with a blank, which is visible
        obtain ⟨ds, hds⟩ := List.head?_eq_some_iff.1 hhead
        rw [hds, hvisible, squeeze_cons, squeezeOnto_squeezeOnto hc hspace]
      · rw [hvisible, squeeze_cons, squeezeOnto_congr hspace hc]
    · have hsqueezed := dropComment?_squeeze (c :: cs)
      rw [hcomment, squeeze_cons, squeezeOnto_char hc, Option.map_none] at hsqueezed
      rw [squeezeOnto_char hc, visible_char hsqueezed, squeeze_cons]

/-- **What is visible depends on the squeezed text only.** -/
theorem squeeze_visible_congr (h : squeeze cs = squeeze ds) :
    squeeze (visible cs) = squeeze (visible ds) := by
  rw [← squeeze_visible_squeeze, h, squeeze_visible_squeeze]

/-- Whether there is a whole comment depends on the squeezed text only. -/
theorem noComment_squeeze (cs : List Char) : noComment (squeeze cs) = noComment cs := by
  induction cs with
  | nil => rfl
  | cons c cs ih =>
    have hsqueezed := dropComment?_squeeze (c :: cs)
    rw [squeeze_cons] at hsqueezed ⊢
    by_cases hc : Text.isBlank c = true
    · have hblank : ∀ {b : Char} {ds}, Text.isBlank b = true → noComment (b :: ds) = noComment ds := by
        intro b ds hb
        have hne : b ≠ '<' := fun h => absurd hb (h ▸ by decide)
        simp [noComment, dropComment?_of_ne hne]
      rw [hblank hc, squeezeOnto_blank hc, ← ih]
      split
      · rfl
      · exact hblank (by decide)
    · rw [squeezeOnto_char hc] at hsqueezed ⊢
      simp only [noComment, hsqueezed, ih, Option.isNone_map]

/-- A pattern without blanks may start a squeezed text where it may start the text. -/
theorem mayStart_squeeze {pattern : List Char} (hp : NoBlanks pattern)
    (cs : List Char) : mayStart pattern (squeeze cs) = mayStart pattern cs := by
  induction pattern generalizing cs with
  | nil =>
    have hhead := @head?_squeeze cs '[' (by decide)
    rw [mayStart, mayStart, Bool.eq_iff_iff, bne_iff_ne, bne_iff_ne, ne_eq, ne_eq, hhead]
  | cons p ps ih =>
    obtain ⟨hp, hps⟩ := List.forall_mem_cons.1 hp
    cases cs with
    | nil => rfl
    | cons c cs =>
      rw [squeeze_cons]
      by_cases hc : Text.isBlank c = true
      · have hne : (p == c) = false := beq_eq_false_iff_ne.2 fun h => hp (h ▸ hc)
        have hspace : (p == ' ') = false := beq_eq_false_iff_ne.2 fun h => hp (h ▸ by decide)
        obtain ⟨ds, hds⟩ := List.head?_eq_some_iff.1 (@head?_squeezeOnto_blank c (squeeze cs) hc)
        rw [hds]
        simp [mayStart, hne, hspace]
      · rw [squeezeOnto_char hc]
        simp only [mayStart, ih hps]

theorem opensComment_blank (hc : Text.isBlank c = true) : opensComment (c :: cs) = false := by
  have hne : ('<' == c) = false := beq_eq_false_iff_ne.2 fun h => absurd hc (h ▸ by decide)
  simp [opensComment, mayStart, hne]

/-- Whether a text opens a comment depends on the squeezed text only. -/
theorem opensNone_squeeze (cs : List Char) : opensNone (squeeze cs) = opensNone cs := by
  induction cs with
  | nil => rfl
  | cons c cs ih =>
    have hblank : ∀ {b : Char} {ds}, Text.isBlank b = true → opensNone (b :: ds) = opensNone ds := by
      intro b ds hb
      simp [opensNone, opensComment_blank hb]
    rw [squeeze_cons]
    by_cases hc : Text.isBlank c = true
    · rw [hblank hc, squeezeOnto_blank hc, ← ih]
      split
      · rfl
      · exact hblank (by decide)
    · have hstart := @mayStart_squeeze ['<', '!', '-', '-'] (by decide) (c :: cs)
      rw [squeeze_cons, squeezeOnto_char hc] at hstart
      rw [squeezeOnto_char hc]
      simp only [opensNone, opensComment, List.isEmpty_cons, hstart, ih]

end Squeeze

/-! ### Texts one after the other -/

section Append

variable {c : Char} {cs rest : List Char}

/-- A text that goes on may start with a pattern only if it may do so as far as it goes. -/
theorem mayStart_of_append {pattern more : List Char} (h : mayStart pattern (cs ++ more) = true) :
    mayStart pattern cs = true := by
  induction pattern generalizing cs with
  | nil =>
    cases cs with
    | nil => rfl
    | cons c cs => exact h
  | cons p ps ih =>
    cases cs with
    | nil => rfl
    | cons c cs =>
      simp only [mayStart, List.cons_append, Bool.and_eq_true] at h ⊢
      exact ⟨h.1, ih h.2⟩

theorem opensComment_of_dropComment? (h : dropComment? cs = some rest) :
    opensComment cs = true := by
  obtain ⟨content, body, rfl, hbracket, -⟩ := dropComment?_eq_some.1 h
  simpa [opensComment, mayStart] using hbracket

/-- No comment starts where none is opened, however the text goes on. -/
theorem dropComment?_append_eq_none (h : opensComment (c :: cs) = false) (more : List Char) :
    dropComment? (c :: cs ++ more) = none := by
  cases hd : dropComment? (c :: cs ++ more) with
  | none => rfl
  | some rest =>
    have hopens := opensComment_of_dropComment? hd
    simp only [opensComment, List.cons_append, List.isEmpty_cons, Bool.not_false,
      Bool.true_and] at h hopens
    rw [@mayStart_of_append (c :: cs) _ _ hopens] at h
    cases h

theorem noComment_of_opensNone (h : opensNone cs = true) : noComment cs = true := by
  induction cs with
  | nil => rfl
  | cons c cs ih =>
    simp only [opensNone, Bool.and_eq_true, Bool.not_eq_true'] at h
    have hnone := dropComment?_append_eq_none h.1 []
    rw [List.append_nil] at hnone
    simp [noComment, hnone, ih h.2]

theorem opensNone_append {ds : List Char} (h : opensNone cs = true) (h' : opensNone ds = true) :
    opensNone (cs ++ ds) = true := by
  induction cs with
  | nil => exact h'
  | cons c cs ih =>
    simp only [opensNone, Bool.and_eq_true, Bool.not_eq_true', List.cons_append] at h ⊢
    refine ⟨?_, ih h.2⟩
    have hclosed := h.1
    simp only [opensComment, List.isEmpty_cons, Bool.not_false, Bool.true_and] at hclosed ⊢
    cases hmay : mayStart ['<', '!', '-', '-'] (c :: (cs ++ ds)) with
    | false => rfl
    | true => rw [@mayStart_of_append (c :: cs) _ _ hmay] at hclosed; cases hclosed

theorem opensNone_of_not_mem (h : '<' ∉ cs) : opensNone cs = true := by
  induction cs with
  | nil => rfl
  | cons c cs ih =>
    simp only [List.mem_cons, not_or] at h
    have hne : ('<' == c) = false := beq_eq_false_iff_ne.2 h.1
    simp [opensNone, opensComment, mayStart, hne, ih h.2]

theorem cut_isSome_append {pattern : List Char} (before : List Char)
    (h : (Text.cut pattern cs).isSome = true) : (Text.cut pattern (before ++ cs)).isSome = true := by
  induction before with
  | nil => exact h
  | cons b before ih =>
    simp only [List.cons_append, Text.cut]
    split
    · rfl
    · simpa using ih

/-- Where no comment ends there is no comment. -/
theorem noComment_of_cut (h : Text.cut ['-', '-', '>'] cs = none) : noComment cs = true := by
  have hsuffix : ∀ before ds, before ++ ds = cs → noComment ds = true := by
    intro before ds
    induction ds generalizing before with
    | nil => exact fun _ => rfl
    | cons c ds ih =>
      intro heq
      have hrest := ih (before ++ [c]) (by simpa using heq)
      cases hd : dropComment? (c :: ds) with
      | none => simp [noComment, hd, hrest]
      | some rest =>
        obtain ⟨content, body, hcontent, -, hcut⟩ := dropComment?_eq_some.1 hd
        have hfound := cut_isSome_append (before ++ ['<', '!', '-', '-'])
          (Option.isSome_of_eq_some hcut)
        rw [List.append_assoc, ← hcontent, heq, h] at hfound
        cases hfound
  exact hsuffix [] cs rfl

theorem noComment_left {more : List Char} (h : noComment (cs ++ more) = true) :
    noComment cs = true := by
  induction cs with
  | nil => rfl
  | cons c cs ih =>
    simp only [List.cons_append, noComment, Bool.and_eq_true, Option.isNone_iff_eq_none] at h
    cases hd : dropComment? (c :: cs) with
    | none => simp [noComment, hd, ih h.2]
    | some rest =>
      have hlonger := dropComment?_append hd more
      rw [List.cons_append, h.1] at hlonger
      cases hlonger

/-- The ends that complete the start of a comment. -/
def openings : List String :=
  ["!--", "--", "-", ""]

/-- A comment that is open has contents without an end, once its start is complete. -/
theorem exists_content_of_opensComment (h : opensComment cs = true)
    (hnone : dropComment? cs = none) :
    ∃ opening ∈ openings, ∃ content, cs ++ opening.toList = ['<', '!', '-', '-'] ++ content ∧
      content.head? ≠ some '[' ∧ Text.cut ['-', '-', '>'] content = none := by
  match cs, h with
  | [c], h =>
    obtain rfl : '<' = c := by simpa [opensComment, mayStart] using h
    exact ⟨"!--", by simp [openings], [], rfl, by simp, rfl⟩
  | [c, d], h =>
    obtain ⟨rfl, rfl⟩ : '<' = c ∧ '!' = d := by simpa [opensComment, mayStart] using h
    exact ⟨"--", by simp [openings], [], rfl, by simp, rfl⟩
  | [c, d, e], h =>
    obtain ⟨rfl, rfl, rfl⟩ : '<' = c ∧ '!' = d ∧ '-' = e := by
      simpa [opensComment, mayStart] using h
    exact ⟨"-", by simp [openings], [], rfl, by simp, rfl⟩
  | c :: d :: e :: f :: content, h =>
    obtain ⟨rfl, rfl, rfl, rfl, hbracket⟩ : '<' = c ∧ '!' = d ∧ '-' = e ∧ '-' = f ∧
        content.head? ≠ some '[' := by
      simpa [opensComment, mayStart] using h
    refine ⟨"", by simp [openings], content, by simp, hbracket, ?_⟩
    cases hcut : Text.cut ['-', '-', '>'] content with
    | none => rfl
    | some found =>
      have hsome := dropComment?_eq_some.2 ⟨content, found.1, rfl, hbracket, hcut⟩
      rw [List.cons_append, List.cons_append, List.cons_append, List.cons_append,
        List.nil_append, hnone] at hsome
      cases hsome

/-- There is no comment after an opened comment that does not end. -/
theorem noComment_of_opensComment (h : opensComment (c :: cs) = true)
    (hnone : dropComment? (c :: cs) = none) : noComment cs = true := by
  have hskip : ∀ {d ds}, d ≠ '<' → noComment ds = true → noComment (d :: ds) = true := by
    intro d ds hd hds
    simp [noComment, dropComment?_of_ne hd, hds]
  obtain ⟨opening, -, content, heq, -, hcut⟩ := exists_content_of_opensComment h hnone
  simp only [List.cons_append, List.nil_append, List.cons.injEq] at heq
  refine @noComment_left cs opening.toList ?_
  rw [heq.2]
  exact hskip (by decide) (hskip (by decide) (hskip (by decide) (noComment_of_cut hcut)))

/-- **Texts one after the other.** What is visible of a text that opens no comment is visible
whatever comes after it. -/
theorem visible_append (h : opensNone (visible cs) = true) (more : List Char) :
    visible (cs ++ more) = visible cs ++ visible more := by
  induction cs using visible_induction with
  | nil => simp
  | comment c cs rest hcomment ih =>
    have hlonger := dropComment?_append hcomment more
    rw [visible_comment hcomment] at h ⊢
    rw [List.cons_append] at hlonger ⊢
    rw [visible_comment hlonger]
    exact ih h
  | char c cs hcomment ih =>
    rw [visible_char hcomment] at h ⊢
    simp only [opensNone, Bool.and_eq_true, Bool.not_eq_true'] at h
    have hopens : opensComment (c :: cs) = false := by
      cases ho : opensComment (c :: cs) with
      | false => rfl
      | true =>
        rw [visible_of_noComment (noComment_of_opensComment ho hcomment), ho] at h
        cases h.1
    have hnone := dropComment?_append_eq_none hopens more
    rw [List.cons_append] at hnone ⊢
    rw [visible_char hnone, ih h.2, List.cons_append]

end Append

end Hashmark
