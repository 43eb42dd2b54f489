import Mathlib.Logic.Relation
import Hashmark.Proofs.Optimizing.Minification
import Hashmark.Proofs.Optimizing.Passes

/-!
# What optimizing may change

Two things may happen to the output of an artifact when it is optimized: a comment goes, or a run of
blanks becomes one space or one line feed (`Edit`). Minifying a text is a sequence of such edits, and
an edit of a text is an edit of every text around it, so optimizing an artifact is a sequence of
edits of its output and keeps its faults (`Artifact.optimize_edits`).
-/

namespace Hashmark

open Relation (ReflTransGen)

/-- What optimizing may do to a text in one step. -/
inductive Edit : List Char → List Char → Prop where
  /-- A comment that is not conditional goes, up to the first end of a comment after its start. -/
  | comment (before : List Char) {content body after : List Char} :
      content.head? ≠ some '[' → Text.cut ['-', '-', '>'] content = some (body, after) →
      Edit (before ++ (['<', '!', '-', '-'] ++ content)) (before ++ after)
  /-- A run of blanks becomes one space or one line feed. -/
  | blanks (before : List Char) {run : List Char} (after : List Char) {c : Char} :
      run ≠ [] → (∀ b ∈ run, Text.isBlank b = true) → c = ' ' ∨ c = '\n' →
      Edit (before ++ (run ++ after)) (before ++ c :: after)

theorem Edit.of_dropComment? {cs rest : List Char} (h : dropComment? cs = some rest) :
    Edit cs rest := by
  obtain ⟨content, body, rfl, hbracket, hcut⟩ := dropComment?_eq_some.1 h
  exact .comment [] hbracket hcut

/-- An edit of a text is an edit of the text with something before it. -/
theorem Edit.append_left {cs ds : List Char} (h : Edit cs ds) (before : List Char) :
    Edit (before ++ cs) (before ++ ds) := by
  cases h with
  | comment before' hbracket hcut =>
    simpa using Edit.comment (before ++ before') hbracket hcut
  | blanks before' after hne hblank hc =>
    simpa using Edit.blanks (before ++ before') after hne hblank hc

/-- An edit of a text is an edit of the text with something after it. -/
theorem Edit.append_right {cs ds : List Char} (h : Edit cs ds) (after : List Char) :
    Edit (cs ++ after) (ds ++ after) := by
  cases h with
  | @comment before content body after' hbracket hcut =>
    have hcut' := Text.cut_append hcut after
    have hbracket' : (content ++ after).head? ≠ some '[' := by
      cases content with
      | nil => cases hcut
      | cons c content => exact hbracket
    simpa using Edit.comment before hbracket' hcut'
  | blanks before after' hne hblank hc =>
    simpa using Edit.blanks before (after' ++ after) hne hblank hc

/-- Edits of two texts are edits of the texts one after the other. -/
theorem congruent_edits : Congruent (ReflTransGen Edit) where
  nil := .refl
  append h h' :=
    (h.lift (· ++ _) fun _ _ hedit => hedit.append_right _).trans
      (h'.lift (_ ++ ·) fun _ _ hedit => hedit.append_left _)

theorem edits_cons {cs ds : List Char} (h : ReflTransGen Edit cs ds) (c : Char) :
    ReflTransGen Edit (c :: cs) (c :: ds) :=
  congruent_edits.append (.refl (a := [c])) h

theorem collapsed_eq (run : List Char) : collapsed run = ' ' ∨ collapsed run = '\n' := by
  unfold collapsed
  split
  · exact .inr rfl
  · exact .inl rfl

/-- The blanks at the start of a text, and the text after them. -/
theorem edits_blanks {c : Char} {cs ds : List Char} (hc : Text.isBlank c = true)
    (h : ReflTransGen Edit (cs.dropWhile Text.isBlank) ds) :
    ReflTransGen Edit (c :: cs) (collapsed (c :: cs.takeWhile Text.isBlank) :: ds) := by
  have hrun : ∀ b ∈ c :: cs.takeWhile Text.isBlank, Text.isBlank b = true :=
    List.forall_mem_cons.2 ⟨hc, List.all_eq_true.1 List.all_takeWhile⟩
  have hedit := Edit.blanks [] (cs.dropWhile Text.isBlank) (by simp) hrun
    (collapsed_eq (c :: cs.takeWhile Text.isBlank))
  rw [List.cons_append, List.takeWhile_append_dropWhile] at hedit
  exact .head hedit (edits_cons h _)

/-- **Minifying a text.** A text becomes the minified one by edits. -/
theorem edits_minifyChars (region : Region) (cs : List Char) :
    ReflTransGen Edit cs (minifyChars region cs).1 := by
  induction region, cs using minifyChars_induction with
  | nil region => rw [minifyChars_nil]
  | closing c cs element n hclosing ih =>
    rw [minifyChars_closing hclosing]
    conv => lhs; rw [← List.take_append_drop n (c :: cs)]
    exact congruent_edits.append .refl ih
  | raw c cs element hclosing ih =>
    rw [minifyChars_raw hclosing]
    exact edits_cons ih c
  | comment c cs region rest hregion hcomment ih =>
    rw [minifyChars_comment hregion hcomment]
    exact .head (.of_dropComment? hcomment) ih
  | opening c cs region element n hregion hcomment hopening ih =>
    rw [minifyChars_opening hregion hcomment hopening]
    conv => lhs; rw [← List.take_append_drop n (c :: cs)]
    exact congruent_edits.append .refl ih
  | blank c cs region hregion hcomment hopening hblank ih =>
    rw [minifyChars_blank hregion hcomment hopening hblank]
    exact edits_blanks hblank ih
  | char c cs region hregion hcomment hopening hblank ih =>
    rw [minifyChars_char hregion hcomment hopening hblank]
    exact edits_cons ih c

theorem edits_minifyText (region : Region) (text : String) :
    ReflTransGen Edit text.toList (minifyText region text).1.toList := by
  unfold minifyText
  split
  · exact .refl
  · simpa using edits_minifyChars region text.toList

theorem allows_edits : Allows (ReflTransGen Edit) fun _ => True where
  self _ := .refl
  minify region _ := ⟨trivial, edits_minifyText region _⟩

theorem comparable_edits (callables : Callables) :
    Comparable (ReflTransGen Edit) callables fun _ => True where
  congruent := congruent_edits
  emit _ _ := .refl
  default _ := .refl
  passes _ _ _ := trivial

/-- **Neutrality.** An optimized artifact fails exactly if the artifact does, and with the same
error; and what it writes is what the artifact writes, with some comments dropped and some runs of
blanks shortened. -/
theorem Artifact.optimize_edits (a : Artifact) (callables : Callables) (s : Scopes) :
    match a.render callables s with
    | .error e => a.optimize.render callables s = .error e
    | .ok out => ∃ out', a.optimize.render callables s = .ok out' ∧
        ReflTransGen Edit out.toList out'.toList :=
  a.render_optimize (comparable_edits callables) ReflTransGen.trans allows_edits
    (fun _ _ => trivial) s trivial

end Hashmark
