import Mathlib
import Hashmark.Proofs.Compiling.Pages
import Hashmark.Proofs.Optimizing.Neutrality
import Hashmark.Proofs.Optimizing.Visibility

/-!
# Texts that open comments

A text that opens a comment once its own are dropped hides what comes after it, and the end of a
later comment shows it again. When the later comment is dropped, as it is a whole one in its own
text, more is hidden than before. So for every text that opens a comment there is an artifact of
which other things are visible once it is optimized, and the texts that can be allowed are the ones
that open none (`keepsVisible_iff`).
-/

namespace Hashmark

open Relation (ReflTransGen)

/-! ### Counting what is not blank -/

/-- The number of characters that are not blanks. -/
def weight (cs : List Char) : Nat :=
  cs.countP fun c => !Text.isBlank c

section Weight

variable {cs ds : List Char}

theorem weight_append (cs ds : List Char) : weight (cs ++ ds) = weight cs + weight ds :=
  List.countP_append

theorem weight_cons_char {c : Char} (hc : ¬Text.isBlank c = true) (cs : List Char) :
    weight (c :: cs) = weight cs + 1 := by
  simp [weight, hc]

theorem weight_cons_blank {c : Char} (hc : Text.isBlank c = true) (cs : List Char) :
    weight (c :: cs) = weight cs := by
  simp [weight, hc]

theorem weight_le_length (cs : List Char) : weight cs ≤ cs.length :=
  List.countP_le_length

theorem weight_squeeze (cs : List Char) : weight (squeeze cs) = weight cs := by
  induction cs with
  | nil => rfl
  | cons c cs ih =>
    rw [squeeze_cons]
    by_cases hc : Text.isBlank c = true
    · rw [squeezeOnto_blank hc, weight_cons_blank hc, ← ih]
      split
      · rfl
      · exact weight_cons_blank (by decide) _
    · rw [squeezeOnto_char hc, weight_cons_char hc, weight_cons_char hc, ih]

theorem weight_congr (h : squeeze cs = squeeze ds) : weight cs = weight ds := by
  rw [← weight_squeeze cs, h, weight_squeeze]

theorem weight_comment {content body rest : List Char}
    (h : Text.cut ['-', '-', '>'] content = some (body, rest)) :
    weight rest < weight (['<', '!', '-', '-'] ++ content) := by
  have hopen : weight ['<', '!', '-', '-'] = 4 := by decide
  rw [Text.eq_append_of_cut h, weight_append, weight_append, hopen]
  omega

/-- Either a text has no comments, or less is visible of it. -/
theorem weight_visible (cs : List Char) : weight (visible cs) < weight cs ∨ visible cs = cs := by
  induction cs using visible_induction with
  | nil => exact .inr visible_nil
  | comment c cs rest hcomment ih =>
    obtain ⟨content, body, heq, -, hcut⟩ := dropComment?_eq_some.1 hcomment
    have hless := weight_comment hcut
    rw [← heq] at hless
    rw [visible_comment hcomment]
    rcases ih with ih | ih
    · exact .inl (Nat.lt_trans ih hless)
    · exact .inl (by rwa [ih])
  | char c cs hcomment ih =>
    rw [visible_char hcomment]
    rcases ih with ih | ih
    · refine .inl ?_
      change weight ([c] ++ visible cs) < weight ([c] ++ cs)
      rw [weight_append, weight_append]
      omega
    · exact .inr (by rw [ih])

theorem weight_visible_le (cs : List Char) : weight (visible cs) ≤ weight cs := by
  rcases weight_visible cs with h | h
  · exact Nat.le_of_lt h
  · exact Nat.le_of_eq (by rw [h])

/-- An edit drops a comment or keeps the squeezed text. -/
theorem Edit.weight_lt (h : Edit cs ds) : weight ds < weight cs ∨ squeeze ds = squeeze cs := by
  cases h with
  | comment before hbracket hcut =>
    refine .inl ?_
    rw [weight_append, weight_append]
    have := weight_comment hcut
    omega
  | @blanks before run after c hne hblank hc =>
    refine .inr (squeeze_append_congr rfl ?_)
    obtain ⟨b, run, rfl⟩ := List.exists_cons_of_ne_nil hne
    obtain ⟨hb, hrun⟩ := List.forall_mem_cons.1 hblank
    have hc' : Text.isBlank c = true := by rcases hc with rfl | rfl <;> decide
    rw [List.cons_append, squeeze_run hb hrun, squeeze_cons, squeeze_cons, squeezeOnto_congr hc' hb]

/-- **Edits only take away.** -/
theorem weight_of_edits (h : ReflTransGen Edit cs ds) :
    weight ds < weight cs ∨ squeeze ds = squeeze cs := by
  induction h with
  | refl => exact .inr rfl
  | tail _ hedit ih =>
    rcases ih with ih | ih <;> rcases hedit.weight_lt with h | h
    · exact .inl (Nat.lt_trans h ih)
    · exact .inl (by rwa [weight_congr h])
    · exact .inl (by rwa [← weight_congr ih])
    · exact .inr (h.trans ih)

end Weight

/-! ### Ends of comments -/

section Ends

variable {cs rest : List Char}

/-- A pattern does not reach over a character that it does not have. -/
theorem dropStart?_barrier {pattern : List Char} {d : Char} (hd : d ∉ pattern)
    (hnone : Text.dropStart? pattern cs = none) (rest : List Char) :
    Text.dropStart? pattern (cs ++ d :: rest) = none := by
  induction pattern generalizing cs with
  | nil => cases hnone
  | cons p ps ih =>
    simp only [List.mem_cons, not_or] at hd
    cases cs with
    | nil => simp [Text.dropStart?, Ne.symm hd.1]
    | cons c cs =>
      simp only [Text.dropStart?, List.cons_append] at hnone ⊢
      split
      · next hp => rw [if_pos hp] at hnone; exact ih hd.2 hnone
      · rfl

/-- The first occurrence of a pattern behind a character that it does not have. -/
theorem cut_barrier {pattern : List Char} (hne : pattern ≠ []) {d : Char} (hd : d ∉ pattern)
    (hnone : Text.cut pattern cs = none) (rest : List Char) :
    (Text.cut pattern (cs ++ d :: rest)).map Prod.snd = (Text.cut pattern rest).map Prod.snd := by
  induction cs with
  | nil =>
    have hstart : Text.dropStart? pattern ([] ++ d :: rest) = none := by
      refine dropStart?_barrier hd ?_ rest
      cases pattern with
      | nil => exact absurd rfl hne
      | cons p ps => rfl
    rw [List.nil_append] at hstart ⊢
    simp only [Text.cut, hstart, Option.map_map]
    rfl
  | cons c cs ih =>
    have hstart : Text.dropStart? pattern (c :: cs) = none := by
      cases h : Text.dropStart? pattern (c :: cs) with
      | none => rfl
      | some found => simp [Text.cut, h] at hnone
    have hrest : Text.cut pattern cs = none := by simpa [Text.cut, hstart] using hnone
    have hstart' := dropStart?_barrier hd hstart rest
    rw [List.cons_append] at hstart' ⊢
    simp only [Text.cut, hstart', Option.map_map]
    exact ih hrest

/-- The comment that has no content. -/
def emptyComment : List Char :=
  ['<', '!', '-', '-', '-', '-', '>']

/-- A comment in front of an empty comment ends before that one starts, or where it ends. -/
theorem dropComment?_append_emptyComment {c : Char} {found : List Char}
    (h : dropComment? (c :: cs ++ (emptyComment ++ rest)) = some found) :
    (∃ found', dropComment? (c :: cs) = some found' ∧ found = found' ++ (emptyComment ++ rest)) ∨
      found = rest := by
  obtain ⟨content, body, heq, hbracket, hcut⟩ := dropComment?_eq_some.1 h
  -- the start of the comment is not the start of the empty one, so it lies before it
  obtain ⟨content', hstart, rfl⟩ : ∃ content', c :: cs = ['<', '!', '-', '-'] ++ content' ∧
      content = content' ++ (emptyComment ++ rest) := by
    match cs, heq with
    | [], heq => simp [emptyComment] at heq
    | [_], heq => simp [emptyComment] at heq
    | [_, _], heq => simp [emptyComment] at heq
    | _ :: _ :: _ :: content', heq =>
      simp only [List.cons_append, List.nil_append, List.cons.injEq] at heq ⊢
      obtain ⟨rfl, rfl, rfl, rfl, rfl⟩ := heq
      exact ⟨content', by simp, rfl⟩
  cases hcut' : Text.cut ['-', '-', '>'] content' with
  | some found' =>
    refine .inl ⟨found'.2, ?_, ?_⟩
    · refine dropComment?_eq_some.2 ⟨content', found'.1, hstart, ?_, hcut'⟩
      cases content' with
      | nil => cases hcut'
      | cons d content' => exact hbracket
    · rw [Text.cut_append hcut'] at hcut
      cases hcut
      rfl
  | none =>
    right
    have hend := cut_barrier (by simp) (by decide : '<' ∉ ['-', '-', '>']) hcut'
      (['!', '-', '-', '-', '-', '>'] ++ rest)
    change (Text.cut _ (content' ++ (emptyComment ++ rest))).map Prod.snd = _ at hend
    rw [hcut] at hend
    simpa [Text.cut, Text.dropStart?] using hend

/-- **A comment ends every comment before it.** What comes after an empty comment is read on its
own, whatever comes before. -/
theorem visible_reset (cs rest : List Char) :
    ∃ before, visible (cs ++ (emptyComment ++ rest)) = before ++ visible rest := by
  induction hn : cs.length using Nat.strongRecOn generalizing cs with
  | ind n ih =>
    subst hn
    cases cs with
    | nil =>
      have hcomment : dropComment? (emptyComment ++ rest) = some rest := by
        simp [emptyComment, dropComment?, Text.dropStart?, Text.cut]
      exact ⟨[], visible_comment hcomment⟩
    | cons c cs =>
      cases hd : dropComment? (c :: cs ++ (emptyComment ++ rest)) with
      | none =>
        obtain ⟨before, hbefore⟩ := ih _ (by simp) cs rfl
        rw [List.cons_append] at hd ⊢
        exact ⟨c :: before, by rw [visible_char hd, hbefore, List.cons_append]⟩
      | some found =>
        have hvisible : visible (c :: cs ++ (emptyComment ++ rest)) = visible found :=
          visible_comment hd
        rw [hvisible]
        obtain ⟨found', hd', rfl⟩ | rfl := dropComment?_append_emptyComment hd
        · exact ih _ (dropComment?_length hd') found' rfl
        · exact ⟨[], rfl⟩

/-- Some letters and the end of a comment. -/
def closing (n : Nat) : List Char :=
  List.replicate (n + 1) 'w' ++ ['-', '-', '>']

/-- A comment that is open ends at the next end of a comment. -/
theorem cut_closing (hnone : Text.cut ['-', '-', '>'] cs = none) (n : Nat) :
    (Text.cut ['-', '-', '>'] (cs ++ closing n)).map Prod.snd = some [] := by
  have hw : 'w' ∉ ['-', '-', '>'] := by decide
  induction n generalizing cs with
  | zero =>
    rw [closing, List.replicate_one, List.singleton_append, cut_barrier (by simp) hw hnone]
    rfl
  | succ n ih =>
    rw [closing, List.replicate_succ, List.cons_append, cut_barrier (by simp) hw hnone]
    exact @ih [] rfl

/-- An open comment is a whole one up to the next end, once its start is complete. -/
theorem dropComment?_closing (hopens : opensComment cs = true) (hnone : dropComment? cs = none) :
    ∃ opening ∈ openings, ∀ n, dropComment? (cs ++ (opening.toList ++ closing n)) = some [] := by
  obtain ⟨opening, hmem, content, heq, hbracket, hcut⟩ :=
    exists_content_of_opensComment hopens hnone
  refine ⟨opening, hmem, fun n => ?_⟩
  have hbracket' : (content ++ closing n).head? ≠ some '[' := by
    cases content with
    | nil => simp [closing, List.replicate_succ]
    | cons d content => exact hbracket
  obtain ⟨found, hfound, hrest⟩ := Option.map_eq_some_iff.1 (cut_closing hcut n)
  rw [← List.append_assoc, heq, List.append_assoc]
  exact dropComment?_eq_some.2 ⟨_, found.1, rfl, hbracket', by rw [hfound, ← hrest]⟩

/-- **An open comment hides all.** A text that opens a comment, but has no whole one, shows nothing
of what comes up to the next end of a comment, once the start of the comment is complete. -/
theorem exists_opening (hnone : noComment cs = true) (hopens : opensNone cs = false) :
    ∃ opening ∈ openings, ∀ n, weight (visible (cs ++ (opening.toList ++ closing n))) ≤ weight cs := by
  induction cs with
  | nil => cases hopens
  | cons c cs ih =>
    simp only [noComment, Bool.and_eq_true, Option.isNone_iff_eq_none] at hnone
    cases hc : opensComment (c :: cs) with
    | true =>
      obtain ⟨opening, hmem, hall⟩ := dropComment?_closing hc hnone.1
      refine ⟨opening, hmem, fun n => ?_⟩
      have hd := hall n
      rw [List.cons_append] at hd ⊢
      rw [visible_comment hd, visible_nil]
      exact Nat.zero_le _
    | false =>
      have hrest : opensNone cs = false := by simpa [opensNone, hc] using hopens
      obtain ⟨opening, hmem, hall⟩ := ih hnone.2 hrest
      refine ⟨opening, hmem, fun n => ?_⟩
      have hd := dropComment?_append_eq_none hc (opening.toList ++ closing n)
      rw [List.cons_append] at hd ⊢
      rw [visible_char hd]
      change weight ([c] ++ _) ≤ weight ([c] ++ cs)
      rw [weight_append, weight_append]
      exact Nat.add_le_add_left (hall n) _

end Ends

/-! ### Pages -/

/-- An artifact without overrides. -/
def Artifact.page (nodes : List Node) : Artifact where
  version := Artifact.currentVersion
  name := "page"
  sections := []
  body := nodes
  dependencies := []

/-- What is known about the overrides of a page: there are none. -/
def OverrideFacts.none : OverrideFacts :=
  ⟨some [], []⟩

section Pages

variable {R : List Char → List Char → Prop} {Good : Scopes → Prop} {Kind : String → Prop}
  {callables : Callables} {s : Scopes} {p : List String}

theorem Artifact.render_page {nodes : List Node} (h : Node.renderList ⟨callables, []⟩ [] s nodes = .ok p) :
    (Artifact.page nodes).render callables s = .ok (String.join p) := by
  simp only [Artifact.render, Artifact.page, h]

/-- An optimized page writes what relates to what its nodes write after one pass. -/
theorem Artifact.render_page_optimize (hR : Comparable R callables Good)
    (htrans : ∀ {a b c}, R a b → R b c → R a c) (h : Allows R Kind) (hs : Good s)
    (nodes : List Node) (hprepare : prepare nodes = nodes)
    (hkind : AllOf Kind (Node.textsOfList (Node.minifyList .none .markup nodes).nodes))
    (hpass : Node.renderList ⟨callables, []⟩ [] s (Node.minifyList .none .markup nodes).nodes =
      .ok p) :
    ∃ out, (Artifact.page nodes).optimize.render callables s = .ok out ∧
      R (written p) out.toList := by
  have hoverrides : ∀ name body, overrideOf [] name = some body →
      AllOf Kind (Node.textsOfList body) :=
    fun name body ho => nomatch ho
  have hbody : (Artifact.page nodes).optimize.body = (settle .none .markup nodes).1 := by
    change (settle .none .markup (prepare nodes)).1 = _
    rw [hprepare]
  have hsettled : Simulates R
      (Node.renderList ⟨callables, []⟩ [] s (Node.minifyList .none .markup nodes).nodes)
      (Node.renderList ⟨callables, []⟩ [] s (settle .none .markup nodes).1) :=
    renderList_settle_of_pass hR htrans h hoverrides _ _ [] s hs _ hkind
  rw [hpass, ← hbody] at hsettled
  obtain ⟨q, hq, hpq⟩ := hsettled
  have hsections : (Artifact.page nodes).optimize.sections = [] := rfl
  refine ⟨String.join q, by simp only [Artifact.render, hsections, hq], ?_⟩
  rwa [String.toList_join]

end Pages

/-! ### Pages of which other things are visible -/

theorem squeeze_minifyText_visible {text : String} (hfree : RawFree text) :
    squeeze (minifyText .markup text).1.toList = squeeze (visible text.toList) ∧
      (minifyText .markup text).2 = .markup := by
  change squeeze (String.ofList (minifyChars .markup text.toList).1).toList = _ ∧
    (minifyChars .markup text.toList).2 = _
  rw [String.toList_ofList]
  exact squeeze_minifyChars_visible (by simp) hfree

/-- A page with nothing but a text: if as much is visible of it when it is optimized, then nothing
was dropped after the first pass, so that pass dropped all comments. -/
theorem noComment_of_keepsVisible {text : String} (hfree : RawFree text) (hne : text ≠ "")
    (h : (Artifact.page [.text text]).KeepsVisible) : noComment (visible text.toList) = true := by
  have hplain : (Artifact.page [.text text]).render .withoutRaw (.ofJson .null) = .ok text := by
    have hnodes : Node.renderList ⟨.withoutRaw, []⟩ [] (.ofJson .null) [.text text] = .ok [text] := by
      rw [renderList_singleton, Node.render]
    simpa [String.join] using Artifact.render_page hnodes
  obtain ⟨p, hp, hwritten⟩ := renderList_minifyText ⟨.withoutRaw, []⟩ .none .markup []
    (.ofJson .null) text
  obtain ⟨out, hout, hedits⟩ := Artifact.render_page_optimize (comparable_edits _)
    ReflTransGen.trans allows_edits trivial [.text text]
    (by simp [prepare, Node.foldList, Node.fold, Node.mergeList, Node.merge, Node.join, hne])
    (fun _ _ => trivial) (by simpa [Node.minifyList] using hp)
  have hkept := h .null
  rw [hplain] at hkept
  obtain ⟨out', hout', hvisible⟩ := hkept
  obtain rfl : out = out' := Except.ok.inj (hout.symm.trans hout')
  have hpass : squeeze (written p) = squeeze (visible text.toList) := by
    rw [hwritten, (squeeze_minifyText_visible hfree).1]
  have hsame : weight (visible out.toList) = weight (written p) :=
    weight_congr (hvisible.symm.trans hpass.symm)
  have hle := weight_visible_le out.toList
  rcases weight_of_edits hedits with hless | hsqueeze
  · omega
  · rcases weight_visible out.toList with hless | hnone
    · have := weight_congr hsqueeze
      omega
    · rw [← noComment_squeeze, ← hpass, ← hsqueeze, noComment_squeeze]
      exact noComment_of_visible hnone

/-- A text that ends a comment, shows some letters and has the end of another comment. -/
def closer (n : Nat) : String :=
  String.ofList (emptyComment ++ closing n)

theorem toList_closer (n : Nat) : (closer n).toList = emptyComment ++ closing n :=
  String.toList_ofList

theorem closer_ne_empty (n : Nat) : closer n ≠ "" := by
  intro hempty
  have := congrArg String.toList hempty
  simp [toList_closer, emptyComment] at this

theorem visible_closing (n : Nat) : visible (closing n) = closing n :=
  visible_of_opensNone (opensNone_of_not_mem (by simp [closing, List.mem_replicate]))

theorem visible_emptyComment (rest : List Char) :
    visible (emptyComment ++ rest) = visible rest := by
  have hcomment : dropComment? (emptyComment ++ rest) = some rest := by
    simp [emptyComment, dropComment?, Text.dropStart?, Text.cut]
  exact visible_comment hcomment

theorem selfContained_closer (n : Nat) : SelfContained (closer n) := by
  rw [SelfContained, toList_closer, visible_emptyComment, visible_closing]
  exact opensNone_of_not_mem (by simp [closing, List.mem_replicate])

theorem mentionsRawElement_of_not_mem {cs : List Char} (h : '<' ∉ cs) :
    mentionsRawElement cs = false := by
  induction cs with
  | nil => rfl
  | cons c cs ih =>
    simp only [List.mem_cons, not_or] at h
    simp [mentionsRawElement, openingTag?, closingTag?, tagAt?, Text.dropStart?, h.1, ih h.2]

theorem rawFree_closer (n : Nat) : RawFree (closer n) := by
  have hrest : mentionsRawElement (['!', '-', '-', '-', '-', '>'] ++ closing n) = false :=
    mentionsRawElement_of_not_mem (by simp [closing, List.mem_replicate])
  rw [RawFree, toList_closer, emptyComment, List.cons_append, mentionsRawElement, hrest,
    Bool.or_false]
  rfl

/-- Data with one value. -/
def valueData (value : String) : Json :=
  .object [("x", .string value)]

/-- A value without special characters is emitted as it is. -/
theorem render_value {value : String} (h : escapeText value = value) (callables : Callables) :
    Node.render ⟨callables, []⟩ [] (.ofJson (valueData value)) (.emit (.var "x")) =
      .ok [value] := by
  have hget : (Scopes.ofJson (valueData value)).get? "x" = some (.str value) := by
    simp [valueData, Scopes.ofJson, Scopes.get?, Value.ofJsonMembers, Value.ofJson, Dict.ofPairs,
      Dict.insert, Dict.find?_cons]
  rw [Node.render, Expr.eval, hget]
  exact congrArg (fun piece => Except.ok [piece]) h

theorem escapeText_opening {opening : String} (h : opening ∈ openings) :
    escapeText opening = opening := by
  simp only [openings, List.mem_cons, List.not_mem_nil, or_false] at h
  rcases h with rfl | rfl | rfl | rfl <;> decide

theorem texts_minifyText {Kind : String → Prop} (facts : OverrideFacts) (region : Region)
    {text : String} (h : Kind (minifyText region text).1) :
    AllOf Kind (Node.textsOfList (Node.minify facts region (.text text)).nodes) := by
  simp only [Node.minify]
  split
  · simp [Node.textsOfList]
  · simpa [Node.textsOfList, Node.texts] using h

/-- A page with a text, a value, and the end of a comment. -/
def Artifact.closedPage (text : String) : Artifact :=
  .page [.text text, .emit (.var "x"), .text (closer text.length)]

theorem Artifact.render_closedPage (text : String) {opening : String} (h : opening ∈ openings) :
    (Artifact.closedPage text).render .withoutRaw (.ofJson (valueData opening)) =
      .ok (String.join [text, opening, closer text.length]) := by
  refine Artifact.render_page ?_
  rw [renderList_text, Node.renderList, render_value (escapeText_opening h) .withoutRaw,
    renderList_singleton, Node.render]
  rfl

/-- Once such a page is optimized, it writes what is visible of its text, the value, and the end
without the comment in front of it. -/
theorem Artifact.render_closedPage_optimize {text : String} (hfree : RawFree text) (hne : text ≠ "")
    (hnone : noComment (visible text.toList) = true) {opening : String} (h : opening ∈ openings) :
    ∃ out, (Artifact.closedPage text).optimize.render .withoutRaw (.ofJson (valueData opening)) =
        .ok out ∧
      squeeze out.toList =
        squeeze (visible text.toList ++ (opening.toList ++ closing text.length)) := by
  let last := closer text.length
  have hlast : last ≠ "" := closer_ne_empty _
  obtain ⟨hsqueeze, hregion⟩ := squeeze_minifyText_visible hfree
  have hsqueeze' : squeeze (minifyText .markup last).1.toList = squeeze (closing text.length) := by
    rw [(squeeze_minifyText_visible (rawFree_closer _)).1, toList_closer, visible_emptyComment,
      visible_closing]
  have hnodes : (Node.minifyList .none .markup [.text text, .emit (.var "x"), .text last]).nodes =
      (Node.minify .none .markup (.text text)).nodes ++
        (.emit (.var "x") :: (Node.minify .none .markup (.text last)).nodes) := by
    simp [Node.minifyList, Node.minify, hregion, Expr.mayBeMarkup, Expr.callees]
  have hkind : AllOf (fun text => noComment text.toList = true) (Node.textsOfList
      (Node.minifyList .none .markup [.text text, .emit (.var "x"), .text last]).nodes) := by
    rw [hnodes, textsOfList_append]
    refine allOf_append.2 ⟨texts_minifyText _ _ ?_, texts_minifyText _ _ ?_⟩
    · rw [← noComment_squeeze, hsqueeze, noComment_squeeze, hnone]
    · rw [← noComment_squeeze, hsqueeze', noComment_squeeze]
      exact noComment_of_visible (visible_closing _)
  obtain ⟨p, hp, hwritten⟩ := renderList_minifyText ⟨.withoutRaw, []⟩ .none .markup []
    (.ofJson (valueData opening)) text
  obtain ⟨q, hq, hwritten'⟩ := renderList_minifyText ⟨.withoutRaw, []⟩ .none .markup []
    (.ofJson (valueData opening)) last
  have hpass : Node.renderList ⟨.withoutRaw, []⟩ [] (.ofJson (valueData opening))
      (Node.minifyList .none .markup [.text text, .emit (.var "x"), .text last]).nodes =
        .ok (p ++ ([opening] ++ q)) := by
    rw [hnodes, renderList_append, hp, Node.renderList,
      render_value (escapeText_opening h) .withoutRaw, hq]
    rfl
  obtain ⟨out, hout, hkept⟩ := Artifact.render_page_optimize (comparable_squeeze .withoutRaw)
    Eq.trans allows_squeeze trivial _ (by simp [prepare, Node.foldList, Node.fold, Node.mergeList,
      Node.merge, Node.join, hne, hlast]) hkind hpass
  refine ⟨out, hout, hkept.symm.trans ?_⟩
  rw [written_append, written_append, hwritten, hwritten']
  exact squeeze_append_congr hsqueeze (squeeze_append_congr (by simp) hsqueeze')

/-- If as much is visible of such a page when it is optimized, whatever the value is, then its text
opens no comment. -/
theorem selfContained_of_keepsVisible {text : String} (hfree : RawFree text) (hne : text ≠ "")
    (hnone : noComment (visible text.toList) = true) (h : (Artifact.closedPage text).KeepsVisible) :
    SelfContained text := by
  cases hopens : opensNone (visible text.toList) with
  | true => exact hopens
  | false =>
    obtain ⟨opening, hmem, hhidden⟩ := exists_opening hnone hopens
    have hkept := h (valueData opening)
    rw [Artifact.render_closedPage text hmem] at hkept
    obtain ⟨out, hout, hvisible⟩ := hkept
    obtain ⟨out', hout', hsqueeze⟩ := Artifact.render_closedPage_optimize hfree hne hnone hmem
    obtain rfl : out' = out := Except.ok.inj (hout'.symm.trans hout)
    -- before, the letters are visible: a comment in front of them ends in front of them
    obtain ⟨before, hbefore⟩ := visible_reset (text.toList ++ opening.toList) (closing text.length)
    have hletters : text.length < weight (visible (String.join
        [text, opening, closer text.length]).toList) := by
      have hpieces : (String.join [text, opening, closer text.length]).toList =
          text.toList ++ opening.toList ++ (emptyComment ++ closing text.length) := by
        simp [toList_closer]
      rw [hpieces, hbefore, visible_closing, weight_append, closing, weight_append]
      have hcount : weight (List.replicate (text.length + 1) 'w') = text.length + 1 := by
        simp [weight, List.countP_replicate, Text.isBlank]
      omega
    -- afterwards they are hidden, and no more is visible than the text
    have hopened := weight_congr (squeeze_visible_congr hsqueeze)
    have hrest := hhidden text.length
    have htext := weight_visible_le text.toList
    have hlength := weight_le_length text.toList
    rw [String.length_toList] at hlength
    have := weight_congr hvisible
    omega

theorem preparedTexts_page (nodes : List Node) :
    (Artifact.page nodes).preparedTexts = Node.textsOfList (prepare nodes) := by
  simp [Artifact.preparedTexts, Artifact.preparedBody, Artifact.preparedSections, Artifact.page]

set_option maxRecDepth 2000 in
/-- A comment that goes over two texts and a value: dropping the comment that ends it hides the rest
of the page. -/
theorem hidden_rest_of_dropped_comment :
    let l := Library.empty.set "page" "<!--#[$x]<!---->z-->"
    let data : Json := .object [("x", .string "a")]
    ∃ a, compile ⟨[], .withoutRaw⟩ l.catalog "page" = .ok a ∧
      AllOf (fun text => RawFree text ∧ (visible text.toList = text.toList ∨ SelfContained text))
        a.preparedTexts ∧
      a.render .withoutRaw (.ofJson data) = .ok "<!--a<!---->z-->" ∧
      a.optimize.render .withoutRaw (.ofJson data) = .ok "<!--az-->" ∧
      squeeze (visible "<!--a<!---->z-->".toList) = "z-->".toList ∧
      squeeze (visible "<!--az-->".toList) = [] := by
  intro l data
  let nodes : List Node := [.text "<!--", .emit (.var "x"), .text "<!---->z-->"]
  let a : Artifact := ⟨1, "page", [], nodes, [⟨⟨"page"⟩, .ofSeconds 1⟩]⟩
  have hprepare : prepare nodes = nodes := by
    simp [nodes, prepare, Node.foldList, Node.fold, Node.mergeList, Node.merge, Node.join]
  have htexts : a.preparedTexts = ["<!--", "<!---->z-->"] := by
    change Node.textsOfList (prepare nodes) ++ [] = _
    rw [hprepare]
    rfl
  have hbody : a.optimize.body = [.text "<!--", .emit (.var "x"), .text "z-->"] := by
    change (settle .none .markup (prepare nodes)).1 = _
    rw [hprepare]
    cbv
  have hrender : ∀ t t', Node.renderList ⟨.withoutRaw, []⟩ [] (.ofJson data)
      [.text t, .emit (.var "x"), .text t'] = .ok [t, "a", t'] := by
    intro t t'
    have hemit := @render_value "a" (by decide) .withoutRaw
    rw [renderList_text, Node.renderList, show data = valueData "a" from rfl, hemit,
      renderList_singleton, Node.render]
    rfl
  have hparse : parseTemplate ⟨[], .withoutRaw⟩ ⟨"page", "<!--#[$x]<!---->z-->"⟩ =
      .ok ⟨none, [.text "<!--", .emit (.var "x"), .text "<!---->z-->"]⟩ := by cbv
  refine ⟨a, compile_page hparse rfl rfl, ?_, ?_, ?_, by cbv, by cbv⟩
  · rw [htexts]
    refine List.forall_mem_cons.2 ⟨⟨?_, .inl ?_⟩, allOf_singleton.2 ⟨?_, .inr ?_⟩⟩
    · rw [RawFree]; cbv
    · cbv
    · rw [RawFree]; cbv
    · rw [SelfContained]; cbv
  · rw [Artifact.render, show a.sections = [] from rfl, hrender]
    rfl
  · rw [Artifact.render, show a.optimize.sections = [] from rfl, hbody, hrender]
    rfl

/-- **Comments that stay in their texts.** Of all artifacts over some texts without raw elements,
besides texts that open no comment, the same is visible before and after they are optimized exactly
if none of the texts opens a comment once its own comments are dropped. -/
theorem keepsVisible_iff (texts : Set String) :
    (∀ a : Artifact,
        AllOf (fun text => RawFree text ∧ (SelfContained text ∨ text ∈ texts)) a.preparedTexts →
        a.KeepsVisible) ↔
      ∀ text ∈ texts, RawFree text → SelfContained text := by
  constructor
  · intro h text htext hfree
    by_cases hne : text = ""
    · subst hne
      rw [SelfContained, String.toList_empty, visible_nil]
      rfl
    · have hpage : (Artifact.page [.text text]).preparedTexts = [text] := by
        simp [preparedTexts_page, prepare, Node.foldList, Node.fold, Node.mergeList, Node.merge,
          Node.join, hne, Node.textsOfList, Node.texts]
      have hclosed : (Artifact.closedPage text).preparedTexts = [text, closer text.length] := by
        simp [Artifact.closedPage, preparedTexts_page, prepare, Node.foldList, Node.fold,
          Node.mergeList, Node.merge, Node.join, hne, closer_ne_empty, Node.textsOfList, Node.texts]
      have hnone := noComment_of_keepsVisible hfree hne
        (h _ (hpage ▸ allOf_singleton.2 ⟨hfree, .inr htext⟩))
      refine selfContained_of_keepsVisible hfree hne hnone (h _ (hclosed ▸ ?_))
      exact List.forall_mem_cons.2 ⟨⟨hfree, .inr htext⟩,
        allOf_singleton.2 ⟨rawFree_closer _, .inl (selfContained_closer _)⟩⟩
  · intro h a ht
    refine a.keepsVisible fun text htext => ?_
    obtain ⟨hfree, hself | hmem⟩ := ht text htext
    · exact .inr ⟨hself, hfree⟩
    · exact .inr ⟨h text hmem hfree, hfree⟩

end Hashmark
