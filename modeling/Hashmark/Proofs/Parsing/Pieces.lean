import Mathlib
import Hashmark.Proofs.Writing.Tokens

/-!
# Markers as pieces of a text

A marker that is read takes a piece off the front of the text, from its `#` to where the rest begins,
and its arguments stand in the piece where the reading says (`readMarker_takes`). A `#` for which no
marker is read starts nothing (`readMarker_eq_none`).
-/

namespace Hashmark

open Expression (isName isNameStart isNameChar)

/-! ### Bytes -/

theorem utf8ByteSize_ofList (cs : List Char) : (String.ofList cs).utf8ByteSize = byteCount cs := by
  induction cs with
  | nil => rfl
  | cons c cs ih =>
    have hcons : String.ofList (c :: cs) = String.singleton c ++ String.ofList cs := by
      rw [String.singleton_eq_ofList, ← String.ofList_append]
      rfl
    rw [hcons, String.utf8ByteSize_append, String.utf8ByteSize_singleton, ih, byteCount_cons]

theorem byteCount_toList (text : String) : byteCount text.toList = text.utf8ByteSize := by
  rw [← utf8ByteSize_ofList, String.ofList_toList]

/-! ### Readings -/

namespace Lexer

/-- Whether a text is that of a reading: the arguments stand in it where the reading says. No marker
ends with a backslash, so none takes the one of an escape. -/
structure Reading.Spans (r : Reading) (lexeme : List Char) : Prop where
  nonempty : lexeme ≠ []
  ends : lexeme.getLast? ≠ some '\\'
  args : ∀ args ∈ r.args, ∃ front back, lexeme = front ++ (args ++ back) ∧ front ≠ [] ∧
    byteCount front = r.argsOffset
  bare : r.args = none → byteCount lexeme = r.argsOffset

/-- A text of ASCII characters takes one byte for each. -/
theorem byteCount_eq_length {p : Char → Bool} (hp : ∀ c, p c = true → c.utf8Size = 1)
    {cs : List Char} (h : ∀ c ∈ cs, p c = true) : byteCount cs = cs.length := by
  induction cs with
  | nil => rfl
  | cons c cs ih =>
    obtain ⟨hc, hcs⟩ := List.forall_mem_cons.1 h
    rw [byteCount_cons, hp c hc, ih hcs, List.length_cons, Nat.add_comm]

theorem utf8Size_of_isNameChar {c : Char} (h : isNameChar c = true) : c.utf8Size = 1 := by
  have hlt : c.toNat ≤ 127 := by
    simp only [isNameChar, Char.isAlphanum, Char.isAlpha, Char.isUpper, Char.isLower, Char.isDigit,
      Bool.or_eq_true, Bool.and_eq_true, decide_eq_true_eq, beq_iff_eq, ge_iff_le,
      UInt32.le_iff_toNat_le, Char.toNat_val] at h
    rcases h with ((h | h) | h) | rfl
    · exact h.2.trans (by decide)
    · exact h.2.trans (by decide)
    · exact h.2.trans (by decide)
    · decide
  exact Char.utf8Size_eq_one_iff.2 hlt

theorem utf8Size_of_isInlineBlank {c : Char} (h : isInlineBlank c = true) : c.utf8Size = 1 := by
  simp only [isInlineBlank, Bool.or_eq_true, beq_iff_eq] at h
  rcases h with rfl | rfl <;> rfl

/-- A bracketed text ends at its bracket. -/
theorem eq_append_of_readClosed {opener closer : Char} {depth : Nat} {quote : Option Char}
    {cs inner rest : List Char}
    (h : readClosed opener closer depth quote cs = some (inner, rest)) :
    cs = inner ++ closer :: rest := by
  fun_induction readClosed opener closer depth quote cs generalizing inner with
  | case1 => cases h
  | case2 => cases h
  | case3 _ _ _ _ ih =>
    obtain ⟨⟨inner', rest'⟩, h', heq⟩ := Option.map_eq_some_iff.1 h
    cases heq
    rw [ih h']
    rfl
  | case7 => cases h; rfl
  | _ =>
    rename_i ih
    obtain ⟨⟨inner', rest'⟩, h', heq⟩ := Option.map_eq_some_iff.1 h
    cases heq
    rw [ih h']
    rfl

theorem eq_append_of_readBracketed {source : Source} {start openAt : Nat} {opener closer : Char}
    {cs inner rest : List Char}
    (h : readBracketed source start openAt opener closer cs = .ok (some (inner, rest))) :
    cs = opener :: (inner ++ closer :: rest) := by
  unfold readBracketed at h
  split at h
  · cases h
  · split at h
    · next hc =>
      split at h
      · next hclosed =>
        cases h
        rw [hc, eq_append_of_readClosed hclosed]
      · cases h
    · cases h

/-- Whether a reading takes a piece off the front of a text and leaves the rest. -/
def Reading.Takes (r : Reading) (cs : List Char) : Prop :=
  ∃ lexeme, cs = lexeme ++ r.rest ∧ r.Spans lexeme

section Directives

variable {kind : MarkerKind} {name gap inner rest : List Char}

/-- The part of a directive in front of its arguments. -/
theorem byteCount_front (hname : ∀ c ∈ name, isNameChar c = true)
    (hgap : ∀ c ∈ gap, isInlineBlank c = true) :
    byteCount ('#' :: (name ++ gap)) = 1 + name.length + gap.length := by
  have hhash : '#'.utf8Size = 1 := rfl
  rw [byteCount_cons, byteCount_append, hhash,
    byteCount_eq_length (fun _ => utf8Size_of_isNameChar) hname,
    byteCount_eq_length (fun _ => utf8Size_of_isInlineBlank) hgap, Nat.add_assoc]

/-- A directive without arguments ends with its name. -/
theorem takes_bare (hname : ∀ c ∈ name, isNameChar c = true) :
    (Reading.mk kind name none (1 + name.length) rest).Takes ('#' :: (name ++ rest)) := by
  refine ⟨'#' :: name, rfl, List.cons_ne_nil _ _, fun hlast => ?_, nofun, fun _ => ?_⟩
  · rcases List.mem_cons.1 (List.mem_of_getLast? hlast) with heq | hmem
    · cases heq
    · exact absurd (hname _ hmem) (by decide)
  · have hfront := @byteCount_front name [] hname nofun
    rwa [List.append_nil] at hfront

/-- A directive with arguments in brackets ends with the closing one. -/
theorem takes_bracketed {opener closer : Char} (hopener : opener.utf8Size = 1)
    (hcloser : closer ≠ '\\') (hname : ∀ c ∈ name, isNameChar c = true)
    (hgap : ∀ c ∈ gap, isInlineBlank c = true) :
    (Reading.mk kind name (some inner) (1 + name.length + (gap.length + 1)) rest).Takes
      ('#' :: (name ++ (gap ++ opener :: (inner ++ closer :: rest)))) := by
  refine ⟨'#' :: (name ++ gap ++ [opener]) ++ (inner ++ [closer]), by simp,
    List.cons_ne_nil _ _, ?_, ?_, nofun⟩
  · rw [← List.append_assoc, List.getLast?_concat]
    exact fun hlast => hcloser (Option.some.inj hlast)
  · rintro _ ⟨⟩
    refine ⟨'#' :: (name ++ gap ++ [opener]), [closer], rfl, List.cons_ne_nil _ _, ?_⟩
    have hfront := byteCount_front hname hgap
    rw [← List.cons_append, byteCount_append, hfront, byteCount_cons, byteCount_nil, hopener]
    show _ = 1 + name.length + (gap.length + 1)
    omega

/-- A section whose name has no brackets ends with its name. -/
theorem takes_bareName (hname : ∀ c ∈ name, isNameChar c = true)
    (hgap : ∀ c ∈ gap, isInlineBlank c = true) (hinner : ∀ c ∈ inner, isBareNameChar c = true)
    (hne : inner ≠ []) :
    (Reading.mk kind name (some inner) (1 + name.length + gap.length) rest).Takes
      ('#' :: (name ++ (gap ++ (inner ++ rest)))) := by
  refine ⟨'#' :: (name ++ gap) ++ inner, by simp, List.cons_ne_nil _ _, fun hlast => ?_, ?_, nofun⟩
  · rw [List.getLast?_append_of_ne_nil _ hne] at hlast
    exact absurd (hinner _ (List.mem_of_getLast? hlast)) (by decide)
  · rintro _ ⟨⟩
    exact ⟨'#' :: (name ++ gap), [], by simp, List.cons_ne_nil _ _, byteCount_front hname hgap⟩

end Directives

/-- The bracket of a directive, behind blanks. -/
theorem takes_readBracketed {source : Source} {start openAt : Nat} {opener closer : Char}
    {kind : MarkerKind} {name gap body inner rest : List Char} (hopener : opener.utf8Size = 1)
    (hcloser : closer ≠ '\\') (hname : ∀ c ∈ name, isNameChar c = true)
    (hgap : ∀ c ∈ gap, isInlineBlank c = true)
    (h : readBracketed source start openAt opener closer body = .ok (some (inner, rest))) :
    (Reading.mk kind name (some inner) (1 + name.length + (gap.length + 1)) rest).Takes
      ('#' :: (name ++ (gap ++ body))) := by
  rw [eq_append_of_readBracketed h]
  exact takes_bracketed hopener hcloser hname hgap

theorem readDirective_takes {directives : Directives} {source : Source} {start : Nat}
    {name tail : List Char} {r : Reading} (hname : ∀ c ∈ name, isNameChar c = true)
    (h : readDirective directives source start name tail = .ok (some r)) :
    r.Takes ('#' :: (name ++ tail)) := by
  have hgap : ∀ c ∈ tail.takeWhile isInlineBlank, isInlineBlank c = true :=
    fun c => List.mem_takeWhile_imp
  -- the brackets of all but unknown directives may stand behind blanks
  have hbracket {kind : MarkerKind} {openAt : Nat} {opener closer : Char} {inner rest : List Char}
      (hopener : opener.utf8Size = 1) (hcloser : closer ≠ '\\')
      (hfound : readBracketed source start openAt opener closer (tail.dropWhile isInlineBlank) =
        .ok (some (inner, rest))) :
      (Reading.mk kind name (some inner)
        (1 + name.length + ((tail.takeWhile isInlineBlank).length + 1)) rest).Takes
          ('#' :: (name ++ tail)) := by
    have htakes : (Reading.mk kind name (some inner)
        (1 + name.length + ((tail.takeWhile isInlineBlank).length + 1)) rest).Takes
          ('#' :: (name ++ (tail.takeWhile isInlineBlank ++ tail.dropWhile isInlineBlank))) :=
      takes_readBracketed hopener hcloser hname hgap hfound
    rwa [List.takeWhile_append_dropWhile] at htakes
  unfold readDirective at h
  dsimp only at h
  split at h
  · cases h
    exact takes_bare hname
  · cases h
    exact takes_bare hname
  · obtain ⟨found, hfound, h⟩ := bind_eq_ok.1 h
    split at h
    · cases h
      split_ifs at hfound
      · exact hbracket rfl (by decide) hfound
      · exact hbracket rfl (by decide) hfound
    · cases h
  · obtain ⟨found, hfound, h⟩ := bind_eq_ok.1 h
    split at h
    · cases h
      exact hbracket rfl (by decide) hfound
    · split at h
      · cases h
      · next hne =>
        cases h
        have hinner : ∀ c ∈ (tail.dropWhile isInlineBlank).takeWhile isBareNameChar,
            isBareNameChar c = true := fun c => List.mem_takeWhile_imp
        have htakes := @takes_bareName (kindOf (String.ofList name)) _ _ _
          ((tail.dropWhile isInlineBlank).dropWhile isBareNameChar) hname hgap hinner
          (List.isEmpty_iff.not.1 hne)
        rwa [List.takeWhile_append_dropWhile, List.takeWhile_append_dropWhile] at htakes
  · obtain ⟨found, hfound, h⟩ := bind_eq_ok.1 h
    split at h
    · cases h
      exact @takes_readBracketed _ _ _ _ _ _ _ [] _ _ _ rfl (by decide) hname nofun hfound
    · split at h <;> cases h
      exact takes_bare hname
  · obtain ⟨found, hfound, h⟩ := bind_eq_ok.1 h
    split at h
    · cases h
      exact hbracket rfl (by decide) hfound
    · cases h

/-- **A marker is a piece of the text**, from its `#` to where the rest begins. -/
theorem readMarker_takes {directives : Directives} {source : Source} {start : Nat}
    {cs : List Char} {r : Reading}
    (h : readMarker directives source start cs = .ok (some r)) : r.Takes ('#' :: cs) := by
  unfold readMarker at h
  split at h
  · next body =>
    split at h
    · cases h
    · next inner rest hclosed =>
      split at h <;> cases h
      refine ⟨'#' :: '[' :: (inner ++ [']']), ?_, List.cons_ne_nil _ _, ?_, ?_, nofun⟩
      · simp [eq_append_of_readClosed hclosed]
      · rw [← List.cons_append, ← List.cons_append, List.getLast?_concat]
        decide
      · rintro _ ⟨⟩
        exact ⟨['#', '['], [']'], rfl, List.cons_ne_nil _ _, rfl⟩
  · next body =>
    split at h
    · cases h
    · next inner rest hcut =>
      cases h
      refine ⟨'#' :: '-' :: '-' :: (inner ++ ['-', '-', '#']), ?_, List.cons_ne_nil _ _, ?_, ?_,
        nofun⟩
      · simp [Text.eq_append_of_cut hcut]
      · rw [← List.cons_append, ← List.cons_append, ← List.cons_append,
          List.getLast?_append_of_ne_nil _ (List.cons_ne_nil _ _)]
        decide
      · rintro _ ⟨⟩
        exact ⟨['#', '-', '-'], ['-', '-', '#'], rfl, List.cons_ne_nil _ _, rfl⟩
  · next c tail _ _ =>
    split at h
    · next hstart =>
      have hname : ∀ d ∈ c :: tail.takeWhile isNameChar, isNameChar d = true :=
        List.forall_mem_cons.2 ⟨Expression.isNameChar_of_isNameStart hstart,
          fun d => List.mem_takeWhile_imp⟩
      have htakes := readDirective_takes hname h
      rwa [List.cons_append, List.takeWhile_append_dropWhile] at htakes
    · cases h
  · cases h

/-- Whether a `#` in front of a text starts nothing: no expression, no comment, and neither a
directive nor a name with a parenthesis right behind it. -/
structure StartsNothing (directives : Directives) (cs : List Char) : Prop where
  expression : cs.head? ≠ some '['
  comment : ¬['-', '-'] <+: cs
  directive : ∀ name rest, cs = name ++ rest → isName name = true →
    (∀ c ∈ rest.head?, isNameChar c = false) →
    String.ofList name ∉ builtinDirectives ∧ Dict.contains directives (String.ofList name) = false ∧
      rest.head? ≠ some '('

theorem kindOf_of_mem {name : String} (h : name ∈ builtinDirectives) :
    kindOf name ≠ .custom := by
  simp only [builtinDirectives, List.mem_cons, List.not_mem_nil, or_false] at h
  rcases h with rfl | rfl | rfl | rfl | rfl | rfl | rfl | rfl | rfl | rfl | rfl <;> decide

/-- A directive that is none is of no known name, and has no parenthesis. -/
theorem readDirective_eq_none {directives : Directives} {source : Source} {start : Nat}
    {name tail : List Char}
    (h : readDirective directives source start name tail = .ok none) :
    String.ofList name ∉ builtinDirectives ∧ Dict.contains directives (String.ofList name) = false ∧
      tail.head? ≠ some '(' := by
  unfold readDirective at h
  dsimp only at h
  split at h
  · cases h
  · cases h
  · obtain ⟨found, -, h⟩ := bind_eq_ok.1 h
    split at h <;> cases h
  · obtain ⟨found, -, h⟩ := bind_eq_ok.1 h
    split at h
    · cases h
    · split at h <;> cases h
  · next hkind =>
    obtain ⟨found, hfound, h⟩ := bind_eq_ok.1 h
    split at h
    · cases h
    · split at h
      · cases h
      · next hcontains =>
        refine ⟨fun hmem => kindOf_of_mem hmem hkind, by simpa using hcontains, ?_⟩
        intro hparen
        obtain ⟨tail, rfl⟩ := List.head?_eq_some_iff.1 hparen
        simp only [readBracketed, if_true] at hfound
        split at hfound <;> cases hfound
  · obtain ⟨found, -, h⟩ := bind_eq_ok.1 h
    split at h <;> cases h

/-- **A `#` that is literal text starts nothing.** -/
theorem readMarker_eq_none {directives : Directives} {source : Source} {start : Nat}
    {cs : List Char} (h : readMarker directives source start cs = .ok none) :
    StartsNothing directives cs := by
  unfold readMarker at h
  split at h
  · split at h
    · cases h
    · split at h <;> cases h
  · split at h <;> cases h
  · next c tail hbracket hdashes =>
    refine ⟨fun hhead => ?_, fun hprefix => ?_, fun name rest hcs hname hrest => ?_⟩
    · exact hbracket (Option.some.inj hhead)
    · obtain ⟨rest, hrest⟩ := hprefix
      obtain ⟨rfl, rfl⟩ := List.cons.inj hrest.symm
      exact hdashes rest rfl rfl
    · -- the name is what the scanner takes for one
      obtain ⟨d, ds, rfl, hstart, hchars⟩ := Expression.exists_cons_of_isName hname
      rw [List.cons_append] at hcs
      obtain ⟨rfl, rfl⟩ := List.cons.inj hcs
      rw [if_pos hstart, Expression.takeWhile_front hchars hrest,
        Expression.dropWhile_front hchars hrest] at h
      exact readDirective_eq_none h
  · refine ⟨nofun, by simp, fun name rest hcs hname _ => ?_⟩
    obtain ⟨rfl, rfl⟩ := List.append_eq_nil_iff.1 hcs.symm
    cases hname

end Lexer

end Hashmark
