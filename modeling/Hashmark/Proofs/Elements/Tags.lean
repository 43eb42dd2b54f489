import Hashmark.Proofs.Escaping.Plain
import Hashmark.Proofs.Optimizing.Minification

/-!
# Tags at the end of a text

Whether a text starts with a tag may depend on what comes after the text: a whole tag at the very end
of the text is none if a letter follows (`tagAt?_append_of_some`), and the start of a tag is one if
the rest follows (`tagAt?_append_of_none`). In all other cases it does not matter what follows. A
letter and the rest of a tag can be emitted, as they have no special characters.
-/

namespace Hashmark

/-! ### Words -/

section Words

variable {word more cs rest : List Char}

theorem dropWord?_append (h : dropWord? word cs = some rest) (more : List Char) :
    dropWord? word (cs ++ more) = some (rest ++ more) := by
  induction word generalizing cs with
  | nil => cases h; rfl
  | cons w ws ih =>
    cases cs with
    | nil => cases h
    | cons c cs =>
      simp only [dropWord?, List.cons_append] at h ⊢
      split at h
      · next hc => rw [if_pos hc]; exact ih h
      · cases h

theorem dropWord?_pattern_append (word more cs : List Char) :
    dropWord? (word ++ more) cs = (dropWord? word cs).bind (dropWord? more) := by
  induction word generalizing cs with
  | nil => rfl
  | cons w ws ih =>
    cases cs with
    | nil => rfl
    | cons c cs =>
      simp only [dropWord?, List.cons_append]
      split
      · exact ih cs
      · rfl

/-- A text starts with a word if its first characters are those of the word, letter case aside. -/
theorem eq_append_of_dropWord? (h : dropWord? word cs = some rest) :
    ∃ start, cs = start ++ rest ∧ start.map Char.toLower = word := by
  induction word generalizing cs with
  | nil => cases h; exact ⟨[], rfl, rfl⟩
  | cons w ws ih =>
    cases cs with
    | nil => cases h
    | cons c cs =>
      unfold dropWord? at h
      split at h
      · next hc =>
        obtain ⟨start, rfl, hstart⟩ := ih h
        exact ⟨c :: start, rfl, by rw [List.map_cons, hc, hstart]⟩
      · cases h

/-- A text that does not start with a word does not do so however it goes on, or it is the start of
the word. -/
theorem dropWord?_append_of_none (hlower : ∀ w ∈ word, w.toLower = w)
    (h : dropWord? word cs = none) :
    (∀ more, dropWord? word (cs ++ more) = none) ∨
      ∃ before missing, word = before ++ missing ∧ cs.map Char.toLower = before ∧
        ∀ rest, dropWord? word (cs ++ (missing ++ rest)) = some rest := by
  induction word generalizing cs with
  | nil => cases h
  | cons w ws ih =>
    cases cs with
    | nil =>
      refine .inr ⟨[], w :: ws, rfl, rfl, fun rest => ?_⟩
      have hself : ∀ (v : List Char), (∀ c ∈ v, c.toLower = c) →
          dropWord? v (v ++ rest) = some rest := by
        intro v hv
        induction v with
        | nil => rfl
        | cons c v ihv =>
          obtain ⟨hc, hv⟩ := List.forall_mem_cons.1 hv
          rw [List.cons_append, dropWord?, if_pos hc, ihv hv]
      exact hself _ hlower
    | cons c cs =>
      unfold dropWord? at h
      split at h
      · next hc =>
        rcases ih (List.forall_mem_cons.1 hlower).2 h with hnone | ⟨before, missing, rfl, heq, hsome⟩
        · exact .inl fun more => by rw [List.cons_append, dropWord?, if_pos hc, hnone]
        · refine .inr ⟨w :: before, missing, rfl, by rw [List.map_cons, hc, heq], fun rest => ?_⟩
          rw [List.cons_append, dropWord?, if_pos hc, hsome]
      · next hc => exact .inl fun more => by rw [List.cons_append, dropWord?, if_neg hc]

end Words

/-! ### Tags -/

/-- The ways in which a tag starts. -/
inductive IsOpener : List Char → Prop where
  | opening : IsOpener ['<']
  | closing : IsOpener ['<', '/']

/-- A character that comes before the letters in lower case is the lower case of itself only. -/
theorem eq_of_toLower_eq {c d : Char} (hd : d.toNat < 97) (h : c.toLower = d) : c = d := by
  unfold Char.toLower at h
  split at h
  · next hupper =>
    subst h
    have hlow : 65 ≤ c.val.toNat := hupper.1
    have hhigh : c.val.toNat ≤ 90 := hupper.2
    have hval : (c.val + ('a'.val - 'A'.val)).toNat = c.val.toNat + 32 := by
      rw [show 'a'.val - 'A'.val = 32 by decide, UInt32.toNat_add]
      simp only [UInt32.reduceToNat]
      omega
    change (c.val + ('a'.val - 'A'.val)).toNat < 97 at hd
    omega
  · exact h

theorem dropStart?_eq_dropWord? {pattern : List Char}
    (h : ∀ p ∈ pattern, p.toNat < 97 ∧ p.toLower = p) (cs : List Char) :
    Text.dropStart? pattern cs = dropWord? pattern cs := by
  induction pattern generalizing cs with
  | nil => rfl
  | cons p ps ih =>
    obtain ⟨⟨hp, hlower⟩, hps⟩ := List.forall_mem_cons.1 h
    cases cs with
    | nil => rfl
    | cons c cs =>
      simp only [Text.dropStart?, dropWord?, ih hps]
      by_cases hc : p = c
      · subst hc
        rw [if_pos rfl, if_pos hlower]
      · rw [if_neg hc, if_neg fun heq => hc (eq_of_toLower_eq hp heq).symm]

section Tags

variable {opener : List Char} {element : RawElement} {c : Char} {cs : List Char} {n : Nat}

/-- A tag is its start and its name as one word, and an end of the name. -/
theorem tagAt?_eq (h : IsOpener opener) (element : RawElement) (cs : List Char) :
    tagAt? opener element cs = (dropWord? (opener ++ element.tag) cs).bind fun rest =>
      if rest.head?.all endsTagName then some (opener ++ element.tag).length else none := by
  have hopener : ∀ p ∈ opener, p.toNat < 97 ∧ p.toLower = p := by
    cases h <;> simp
  rw [tagAt?, dropStart?_eq_dropWord? hopener, dropWord?_pattern_append, List.length_append]
  cases dropWord? opener cs <;> rfl

theorem tagAt?_length_le (h : IsOpener opener) (htag : tagAt? opener element cs = some n) :
    n ≤ cs.length := by
  rw [tagAt?_eq h, Option.bind_eq_some_iff] at htag
  obtain ⟨rest, hrest, hends⟩ := htag
  obtain ⟨start, rfl, hstart⟩ := eq_append_of_dropWord? hrest
  have hn : (opener ++ element.tag).length = n := by
    split at hends
    · exact Option.some.inj hends
    · cases hends
  rw [← hn, ← hstart, List.length_map, List.length_append]
  omega

theorem toLower_tag (h : IsOpener opener) (element : RawElement) :
    ∀ w ∈ opener ++ element.tag, w.toLower = w := by
  cases h <;> cases element <;> simp [RawElement.tag]

/-- The start of a tag has no bracket but its first character. -/
theorem brackets_of_start (h : IsOpener opener) {before missing : List Char}
    (hword : opener ++ element.tag = before ++ missing) (hcs : (c :: cs).map Char.toLower = before) :
    '<' ∉ cs ∧ '>' ∉ c :: cs := by
  constructor
  · intro hmem
    have htail : '<' ∉ (opener ++ element.tag).tail := by cases h <;> cases element <;> decide
    refine htail ?_
    rw [hword, ← hcs]
    exact List.mem_append_left _ (List.mem_map.2 ⟨'<', hmem, by decide⟩)
  · intro hmem
    have hall : '>' ∉ opener ++ element.tag := by cases h <;> cases element <;> decide
    refine hall ?_
    rw [hword, ← hcs]
    exact List.mem_append_left _ (List.mem_map.2 ⟨'>', hmem, by decide⟩)

/-- **A whole tag** is one however the text goes on, unless the text ends with it: then it is none if
a letter follows. -/
theorem tagAt?_append_of_some (h : IsOpener opener) (htag : tagAt? opener element (c :: cs) = some n) :
    (∀ more, tagAt? opener element (c :: cs ++ more) = some n) ∨
      ('<' ∉ cs ∧ '>' ∉ c :: cs) ∧ (c :: cs).length = n ∧
        ∀ more, tagAt? opener element (c :: cs ++ 'y' :: more) = none := by
  simp only [tagAt?_eq h, Option.bind_eq_some_iff] at htag ⊢
  obtain ⟨rest, hrest, hends⟩ := htag
  cases rest with
  | cons d rest =>
    refine .inl fun more => ⟨_, dropWord?_append hrest more, ?_⟩
    simpa using hends
  | nil =>
    obtain ⟨start, heq, hstart⟩ := eq_append_of_dropWord? hrest
    rw [List.append_nil] at heq
    refine .inr ⟨?_, ?_, fun more => ?_⟩
    · exact brackets_of_start h (List.append_nil _).symm (heq ▸ hstart)
    · have hn : (opener ++ element.tag).length = n := by simpa using hends
      rw [← hn, ← hstart, heq, List.length_map]
    · rw [dropWord?_append hrest]
      rfl

/-- Characters that are emitted as they are. -/
def EmittedAsIs (cs : List Char) : Prop :=
  ∀ c ∈ cs, escapedChar c = [c]

instance (cs : List Char) : Decidable (EmittedAsIs cs) :=
  List.decidableBAll _ cs

theorem EmittedAsIs.append {ds : List Char} (h : EmittedAsIs cs) (h' : EmittedAsIs ds) :
    EmittedAsIs (cs ++ ds) :=
  List.forall_mem_append.2 ⟨h, h'⟩

theorem escapeText_ofList (h : EmittedAsIs cs) : escapeText (String.ofList cs) = String.ofList cs := by
  rw [escapeText, String.toList_ofList]
  congr 1
  induction cs with
  | nil => rfl
  | cons c cs ih =>
    obtain ⟨hc, hcs⟩ := List.forall_mem_cons.1 h
    rw [List.flatMap_cons, hc, ih hcs, List.singleton_append]

/-- **The start of a tag**, or of none: a text does not start with a tag however it goes on, or it
does so once the rest of the tag follows. -/
theorem tagAt?_append_of_none (h : IsOpener opener) (htag : tagAt? opener element (c :: cs) = none) :
    (∀ more, tagAt? opener element (c :: cs ++ more) = none) ∨
      ('<' ∉ cs ∧ '>' ∉ c :: cs) ∧ ∃ missing, EmittedAsIs missing ∧ ∀ more,
        tagAt? opener element (c :: cs ++ (missing ++ ' ' :: more)) =
          some (c :: cs ++ missing).length := by
  simp only [tagAt?_eq h] at htag ⊢
  cases hword : dropWord? (opener ++ element.tag) (c :: cs) with
  | some rest =>
    left
    intro more
    rw [dropWord?_append hword]
    cases rest with
    | nil => simp [hword] at htag
    | cons d rest => rw [hword] at htag; exact htag
  | none =>
    refine (dropWord?_append_of_none (toLower_tag h element) hword).imp (fun hnone more => ?_) ?_
    · rw [hnone]
      rfl
    · rintro ⟨before, missing, heq, hcs, hsome⟩
      refine ⟨brackets_of_start h heq hcs, missing, fun m hm => ?_, fun more => ?_⟩
      · have htail : EmittedAsIs (opener ++ element.tag).tail := by
          cases h <;> cases element <;> decide
        refine htail m ?_
        rw [heq, ← hcs]
        exact List.mem_append_right _ hm
      · rw [hsome, heq, ← hcs]
        simp [endsTagName, Text.isBlank]

/-! ### Opening tags -/

/-- The first three characters of an opening tag. -/
theorem take_of_openingTag? (h : openingTag? element cs = some n) :
    (cs.take 3).map Char.toLower = '<' :: element.tag.take 2 := by
  rw [openingTag?, tagAt?_eq .opening, Option.bind_eq_some_iff] at h
  obtain ⟨rest, hrest, -⟩ := h
  obtain ⟨start, rfl, hstart⟩ := eq_append_of_dropWord? hrest
  have hlength : 3 ≤ start.length := by
    have := congrArg List.length hstart
    rw [List.length_map] at this
    rw [this]
    cases element <;> decide
  rw [List.take_append_of_le_length hlength, List.map_take, hstart]
  cases element <;> rfl

/-- A text starts with an opening tag of one element only. -/
theorem openingTag?_unique {other : RawElement} {m : Nat} (h : openingTag? element cs = some n)
    (h' : openingTag? other cs = some m) : element = other := by
  have heq := (take_of_openingTag? h).symm.trans (take_of_openingTag? h')
  revert heq
  cases element <;> cases other <;> decide

theorem openingRaw?_eq_some : openingRaw? cs = some (element, n) ↔
    openingTag? element cs = some n := by
  constructor
  · intro h
    obtain ⟨other, -, hother⟩ := List.exists_of_findSome?_eq_some h
    obtain ⟨m, hm, heq⟩ := Option.map_eq_some_iff.1 hother
    cases heq
    exact hm
  · intro h
    cases hraw : openingRaw? cs with
    | none =>
      have hnone := List.findSome?_eq_none_iff.1 hraw element (by cases element <;> decide)
      rw [h] at hnone
      cases hnone
    | some found =>
      obtain ⟨other, -, hother⟩ := List.exists_of_findSome?_eq_some hraw
      obtain ⟨m, hm, rfl⟩ := Option.map_eq_some_iff.1 hother
      obtain rfl := openingTag?_unique h hm
      rw [h] at hm
      cases hm
      rfl

theorem openingRaw?_eq_none : openingRaw? cs = none ↔ ∀ element, openingTag? element cs = none := by
  simp only [openingRaw?, List.findSome?_eq_none_iff, Option.map_eq_none_iff]
  exact ⟨fun h element => h element (by cases element <;> decide), fun h element _ => h element⟩

/-- **A whole opening tag** is one however the text goes on, unless the text ends with it. -/
theorem openingRaw?_append_of_some (h : openingRaw? (c :: cs) = some (element, n)) :
    (∀ more, openingRaw? (c :: cs ++ more) = some (element, n)) ∨
      ('<' ∉ cs ∧ '>' ∉ c :: cs) ∧ (c :: cs).length = n ∧
        ∀ more, openingRaw? (c :: cs ++ 'y' :: more) = none := by
  have htag := openingRaw?_eq_some.1 h
  refine (tagAt?_append_of_some .opening htag).imp (fun hsome more => ?_) ?_
  · exact openingRaw?_eq_some.2 (hsome more)
  · rintro ⟨hbrackets, hlength, hnone⟩
    refine ⟨hbrackets, hlength, fun more => openingRaw?_eq_none.2 fun other => ?_⟩
    cases hother : openingTag? other (c :: cs ++ 'y' :: more) with
    | none => rfl
    | some m =>
      have hthree := take_of_openingTag? hother
      have hlong : 3 ≤ (c :: cs).length := by
        have := congrArg List.length (take_of_openingTag? htag)
        rw [List.length_map, List.length_take] at this
        have : (element.tag.take 2).length = 2 := by cases element <;> rfl
        simp only [List.length_cons] at *
        omega
      rw [List.take_append_of_le_length hlong, take_of_openingTag? htag] at hthree
      obtain rfl : element = other := by
        revert hthree
        cases element <;> cases other <;> decide
      rw [openingTag?, hnone] at hother
      cases hother

/-- **The start of an opening tag**, or of none. -/
theorem openingRaw?_append_of_none (h : openingRaw? (c :: cs) = none) :
    (∀ more, openingRaw? (c :: cs ++ more) = none) ∨
      ('<' ∉ cs ∧ '>' ∉ c :: cs) ∧ ∃ element missing, EmittedAsIs missing ∧ ∀ more,
        openingRaw? (c :: cs ++ (missing ++ ' ' :: more)) =
          some (element, (c :: cs ++ missing).length) := by
  by_cases hnone : ∀ element more, openingTag? element (c :: cs ++ more) = none
  · exact .inl fun more => openingRaw?_eq_none.2 fun element => hnone element more
  · obtain ⟨element, hsome⟩ := Classical.not_forall.1 hnone
    refine .inr ?_
    obtain hall | ⟨hbrackets, missing, hmissing, htag⟩ :=
      tagAt?_append_of_none .opening (openingRaw?_eq_none.1 h element)
    · exact absurd hall hsome
    · exact ⟨hbrackets, element, missing, hmissing, fun more => openingRaw?_eq_some.2 (htag more)⟩

end Tags

end Hashmark
