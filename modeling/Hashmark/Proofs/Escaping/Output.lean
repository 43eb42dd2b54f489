import Mathlib
import Hashmark.Proofs.Escaping.Plain
import Hashmark.Proofs.Rendering.Tables

/-!
# Output without markup

An artifact that does not use the filter `raw` writes brackets and quotes only where its own texts
have them (`Artifact.render_noMarkup`): what its markers emit is plain, and defaults are escaped. An
artifact without the filter is rendered by the built-in tables as by the tables that lack it.
-/

namespace Hashmark

/-- The texts of an artifact, in its body and in its overrides. -/
def Artifact.texts (a : Artifact) : List String :=
  Node.textsOfList a.body ++ a.sections.flatMap fun o => Node.textsOfList o.body

/-- Both texts have no bracket and no quote. -/
def NoMarkupIn (x y : List Char) : Prop :=
  NoMarkup x ∧ NoMarkup y

theorem NoMarkup.append {x y : List Char} (hx : NoMarkup x) (hy : NoMarkup y) :
    NoMarkup (x ++ y) :=
  List.forall_mem_append.2 ⟨hx, hy⟩

theorem congruent_noMarkupIn : Congruent NoMarkupIn where
  nil := ⟨by simp [NoMarkup], by simp [NoMarkup]⟩
  append h h' := ⟨h.1.append h'.1, h.2.append h'.2⟩

/-- What markers emit has no markup as long as the variables in view are plain. -/
theorem comparable_noMarkupIn : Comparable NoMarkupIn .withoutRaw Scopes.Plain where
  congruent := congruent_noMarkupIn
  emit hs hv :=
    have h := escape_plain (Expr.eval_plain hs _ (fun callee _ => keepsPlain_withoutRaw callee) hv)
    ⟨h, h⟩
  default text := ⟨noMarkup_escapeText text, noMarkup_escapeText text⟩
  passes hs hv hs' :=
    hs.passes (Expr.eval_plain hs _ (fun callee _ => keepsPlain_withoutRaw callee) hv) hs'

theorem regards_noMarkupIn {texts : List String} (h : ∀ text ∈ texts, NoMarkup text.toList) :
    Regards NoMarkupIn texts :=
  fun text htext => ⟨h text htext, h text htext⟩

/-- Calls of anything but the filter `raw` have the same outcomes without it. -/
theorem related_withoutRaw {callee : Callee} (h : callee ≠ .filter "raw") :
    Callables.Related (fun x y => x = y) .builtin .withoutRaw callee := by
  cases callee with
  | function name => exact fun args => rfl
  | filter name =>
    intro input args
    have hname : name ≠ "raw" := by simpa using h
    have hfind : Dict.find? Callables.withoutRaw.filters name =
        Dict.find? Callables.builtin.filters name := by
      rw [Callables.withoutRaw, Dict.find?_erase, if_neg hname]
    rw [Callables.pipe, Callables.pipe, hfind]

/-- **Escaping.** The output of an artifact over JSON data has no bracket and no quote if the texts
of the artifact have none and it does not use `raw`, whatever the data is. -/
theorem Artifact.render_noMarkup {a : Artifact}
    (hcallees : ∀ callee ∈ a.callees, callee ≠ .filter "raw")
    (htexts : ∀ text ∈ a.texts, NoMarkup text.toList) {data : Json} {out : String}
    (h : a.render .builtin (.ofJson data) = .ok out) : NoMarkup out.toList := by
  rw [a.render_congr (fun callee hcallee => related_withoutRaw (hcallees callee hcallee))] at h
  obtain ⟨hbody, hsections⟩ := List.forall_mem_append.1 htexts
  have hoverrides : ∀ name body, overrideOf a.sections name = some body →
      Regards NoMarkupIn (Node.textsOfList body) := by
    intro name body ho
    obtain ⟨o, hfind, rfl⟩ := Option.map_eq_some_iff.1 ho
    exact regards_noMarkupIn fun text htext =>
      hsections text (List.mem_flatMap.2 ⟨o, List.mem_of_find?_eq_some hfind, htext⟩)
  have hrender := Node.renderList_self comparable_noMarkupIn hoverrides [] (.ofJson data) a.body
    (Scopes.plain_ofJson data) (regards_noMarkupIn hbody)
  rw [Artifact.render] at h
  split at h
  · next pieces hpieces =>
    cases h
    rw [hpieces] at hrender
    obtain ⟨-, -, hwritten, -⟩ := hrender
    rw [String.toList_join]
    exact hwritten
  · cases h

/-- A default, an override with a piped value and a loop over data, all of them with brackets. -/
theorem render_escaped_data :
    let a : Artifact :=
      ⟨Artifact.currentVersion, "page",
        [⟨"title", [.emit (.filter (.var "x") "default" [.lit (.str "\"")])]⟩],
        [.text "a", .yield "title" none, .yield "rest" (some "<"),
          .forEach (.var "y") none "item" [.emit (.filter (.var "item") "first" [])]], []⟩
    let data : Json := .object [("x", .null), ("y", .array [.string "'>"])]
    (∀ callee ∈ a.callees, callee ≠ .filter "raw") ∧
      (∀ text ∈ a.texts, NoMarkup text.toList) ∧
      a.render .builtin (.ofJson data) = .ok "a&quot;&lt;&#x27;" ∧
      NoMarkup "a&quot;&lt;&#x27;".toList := by
  intro a data
  have hcallees : ∀ callee ∈ a.callees, callee ≠ .filter "raw" := by decide
  have htexts : ∀ text ∈ a.texts, NoMarkup text.toList := by decide
  have hrender : a.render .builtin (.ofJson data) = .ok "a&quot;&lt;&#x27;" := by cbv
  exact ⟨hcallees, htexts, hrender, Artifact.render_noMarkup hcallees htexts hrender⟩

end Hashmark
