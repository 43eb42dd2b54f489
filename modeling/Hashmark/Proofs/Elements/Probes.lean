import Hashmark.Proofs.Elements.Contents
import Hashmark.Proofs.Elements.Diversions
import Hashmark.Proofs.Elements.Tracking

/-!
# Probing a text

A probe is a page with a text in a region, another text to divert from it, and a last text, with a
value emitted between each two of them (`probe`). It shows whether the optimizer follows the region
rightly: if it does not, the last text is taken to be outside of raw elements although it is within
one, or the other way around, and its characters are missing from the contents or among them.
-/

namespace Hashmark

/-! ### Pages of texts and values -/

/-- A text as nodes; an empty one is none. -/
def Node.ofText (text : String) : List Node :=
  if text = "" then [] else [.text text]

/-- Four texts with a value between each two of them. -/
def probe (first second third last : String) : List Node :=
  Node.ofText first ++ .emit (.var "x") :: (Node.ofText second ++ .emit (.var "x") ::
    (Node.ofText third ++ .emit (.var "x") :: Node.ofText last))

section Probe

variable {first second third last value : String}

theorem foldList_append (nodes more : List Node) :
    Node.foldList (nodes ++ more) = Node.foldList nodes ++ Node.foldList more := by
  induction nodes with
  | nil => rfl
  | cons node nodes ih => simp [Node.foldList, ih]

/-- A text in front of a marker stays as it is. -/
theorem mergeList_ofText (text : String) (value : Expr) (nodes : List Node) :
    Node.mergeList (Node.ofText text ++ .emit value :: nodes) =
      Node.ofText text ++ .emit value :: Node.mergeList nodes := by
  unfold Node.ofText
  split
  · rfl
  · next hne => simp [Node.mergeList, Node.merge, Node.join, hne]

theorem foldList_ofText (text : String) :
    Node.foldList (Node.ofText text) = Node.ofText text := by
  unfold Node.ofText
  split <;> simp [Node.foldList, Node.fold]

theorem prepare_probe : prepare (probe first second third last) = probe first second third last := by
  have hlast : Node.mergeList (Node.ofText last) = Node.ofText last := by
    unfold Node.ofText
    split
    · rfl
    · next hne => simp [Node.mergeList, Node.merge, Node.join, hne]
  simp only [prepare, probe, foldList_append, Node.foldList, foldList_ofText, Node.fold,
    List.singleton_append, mergeList_ofText, hlast]

theorem textsOfList_ofText {Kind : String → Prop} {text : String} (h : Kind text) :
    AllOf Kind (Node.textsOfList (Node.ofText text)) := by
  unfold Node.ofText
  split <;> simp [Node.textsOfList, Node.texts, h]

/-- The texts of a probe are of a kind if the four texts are. -/
theorem texts_probe {Kind : String → Prop} (hfirst : Kind first) (hsecond : Kind second)
    (hthird : Kind third) (hlast : Kind last) :
    AllOf Kind (Artifact.page (probe first second third last)).preparedTexts := by
  rw [preparedTexts_page, prepare_probe, probe]
  simp only [textsOfList_append, Node.textsOfList, Node.texts, List.nil_append, allOf_append]
  exact ⟨textsOfList_ofText hfirst, textsOfList_ofText hsecond, textsOfList_ofText hthird,
    textsOfList_ofText hlast⟩

theorem hazardsOfList_append {overrides : List Override} {changing active : List String}
    (nodes more : List Node) : Node.hazardsOfList overrides changing active (nodes ++ more) =
      Node.hazardsOfList overrides changing active nodes ++
        Node.hazardsOfList overrides changing active more := by
  induction nodes with
  | nil => rw [Node.hazardsOfList]; rfl
  | cons node nodes ih => rw [List.cons_append, Node.hazardsOfList, ih, Node.hazardsOfList,
      List.append_assoc]

theorem hazards_probe : (Artifact.page (probe first second third last)).hazards = [] := by
  have htext : ∀ (overrides : List Override) (changing : List String) (text : String),
      Node.hazardsOfList overrides changing [] (Node.ofText text) = [] := by
    intro overrides changing text
    unfold Node.ofText
    split <;> simp [Node.hazardsOfList, Node.hazards]
  unfold Artifact.hazards
  rw [show (Artifact.page (probe first second third last)).preparedBody =
    prepare (probe first second third last) from rfl, prepare_probe, probe]
  simp only [hazardsOfList_append, Node.hazardsOfList, htext, Node.hazards, List.append_nil]

/-- What four texts write with a value between each two of them. -/
def probeOutput (value first second third last : List Char) : List Char :=
  first ++ (value ++ (second ++ (value ++ (third ++ (value ++ last)))))

/-- What a probe writes. -/
theorem renderList_probe (hvalue : escapeText value = value) (callables : Callables) :
    ∃ p, Node.renderList ⟨callables, []⟩ [] (.ofJson (valueData value))
        (probe first second third last) = .ok p ∧
      written p = probeOutput value.toList first.toList second.toList third.toList last.toList := by
  have htext : ∀ text : String, ∃ p, Node.renderList ⟨callables, []⟩ []
      (.ofJson (valueData value)) (Node.ofText text) = .ok p ∧ written p = text.toList := by
    intro text
    unfold Node.ofText
    split
    · next hempty => exact ⟨[], by rw [Node.renderList], by simp [hempty]⟩
    · exact ⟨[text], by rw [renderList_singleton, Node.render], by simp⟩
  obtain ⟨p₁, hp₁, hw₁⟩ := htext first
  obtain ⟨p₂, hp₂, hw₂⟩ := htext second
  obtain ⟨p₃, hp₃, hw₃⟩ := htext third
  obtain ⟨p₄, hp₄, hw₄⟩ := htext last
  refine ⟨p₁ ++ ([value] ++ (p₂ ++ ([value] ++ (p₃ ++ ([value] ++ p₄))))), ?_, ?_⟩
  · simp only [probe, renderList_append, Node.renderList, render_value hvalue, hp₁, hp₂, hp₃, hp₄]
    rfl
  · simp [probeOutput, hw₁, hw₂, hw₃, hw₄]

theorem render_probe (hvalue : escapeText value = value) (callables : Callables) :
    ∃ out, (Artifact.page (probe first second third last)).render callables
        (.ofJson (valueData value)) = .ok out ∧
      out.toList =
        probeOutput value.toList first.toList second.toList third.toList last.toList := by
  obtain ⟨p, hp, hwritten⟩ := renderList_probe hvalue callables
  exact ⟨String.join p, Artifact.render_page hp, by rw [String.toList_join]; exact hwritten⟩

/-! ### Probes and regions -/

/-- The texts of a probe, each rewritten from the region in which it is entered. -/
theorem rewriteList_probe (f : Region → String → String) (hf : ∀ region, f region "" = "")
    (facts : OverrideFacts) (region : Region) :
    let region₂ := (minifyText region first).2
    let region₃ := (minifyText region₂ second).2
    let region₄ := (minifyText region₃ third).2
    Node.rewriteList f facts region (probe first second third last) =
      probe (f region first) (f region₂ second) (f region₃ third) (f region₄ last) := by
  have htext : ∀ (region : Region) (text : String),
      Node.rewriteList f facts region (Node.ofText text) = Node.ofText (f region text) ∧
        (Node.minifyList facts region (Node.ofText text)).region = (minifyText region text).2 := by
    intro region text
    unfold Node.ofText
    by_cases hempty : text = ""
    · simp [hempty, hf, Node.rewriteList, Node.minifyList]
    · simp [hempty, Node.rewriteList, Node.rewrite, Node.minifyList, Node.minify]
  have hemit : (Expr.var "x").mayBeMarkup = false := rfl
  intro region₂ region₃ region₄
  simp only [probe, rewriteList_append, Node.rewriteList, Node.rewrite, Node.minify, hemit, htext,
    Bool.false_eq_true, if_false, List.singleton_append]
  rfl

/-! ### Optimized probes -/

theorem Artifact.optimize_page (nodes : List Node) :
    (Artifact.page nodes).optimize.body = (settle .none .markup (prepare nodes)).1 := rfl

theorem Artifact.render_optimized_page {callables : Callables} {s : Scopes} {nodes : List Node}
    {p : List String} (h : Node.renderList ⟨callables, []⟩ [] s
      (settle .none .markup (prepare nodes)).1 = .ok p) :
    (Artifact.page nodes).optimize.render callables s = .ok (String.join p) := by
  have hsections : (Artifact.page nodes).optimize.sections = [] := rfl
  rw [Artifact.render, hsections, Artifact.optimize_page, h]

/-- **Probes with stable texts.** What an optimized probe writes, if each of its texts leads to the
same region however often it is minified. -/
theorem render_probe_settled (hvalue : escapeText value = value) (callables : Callables)
    (hfirst : Stable first) (hsecond : Stable second) (hthird : Stable third)
    (hlast : Stable last) :
    let region₂ := (minifyText .markup first).2
    let region₃ := (minifyText region₂ second).2
    let region₄ := (minifyText region₃ third).2
    ∃ out, (Artifact.page (probe first second third last)).optimize.render callables
        (.ofJson (valueData value)) = .ok out ∧
      out.toList = probeOutput value.toList (settleText .markup first).toList
        (settleText region₂ second).toList (settleText region₃ third).toList
        (settleText region₄ last).toList := by
  intro region₂ region₃ region₄
  have hstable := texts_probe hfirst hsecond hthird hlast
  rw [preparedTexts_page] at hstable
  have hsettle := congrArg Prod.fst (settle_eq .none .markup hstable)
  rw [prepare_probe, rewriteList_probe settleText settleText_empty] at hsettle
  obtain ⟨p, hp, hwritten⟩ := renderList_probe hvalue callables
  refine ⟨String.join p, Artifact.render_optimized_page ?_, ?_⟩
  · rw [prepare_probe, hsettle]
    exact hp
  · rw [String.toList_join]
    exact hwritten

theorem length_le_of_edits {cs ds : List Char} (h : Relation.ReflTransGen Edit cs ds) :
    ds.length ≤ cs.length := by
  induction h with
  | refl => exact Nat.le_refl _
  | tail _ hedit ih =>
    refine Nat.le_trans ?_ ih
    cases hedit with
    | comment before hbracket hcut =>
      rw [Text.eq_append_of_cut hcut]
      simp only [List.length_append]
      omega
    | blanks before after hne =>
      have hpos := List.length_pos_iff.2 hne
      simp only [List.length_append, List.length_cons]
      omega

theorem length_minified_le (region : Region) (text : String) :
    (minified region text).toList.length ≤ text.toList.length :=
  (smaller_minified region text).length_le

theorem length_probeOutput (value first second third last : List Char) :
    (probeOutput value first second third last).length =
      first.length + second.length + third.length + last.length + 3 * value.length := by
  simp only [probeOutput, List.length_append]
  omega

theorem totalOf_probe {measure : String → Nat} (hmeasure : measure "" = 0) :
    totalOf measure (Node.textsOfList (probe first second third last)) =
      measure first + measure second + measure third + measure last := by
  have htext : ∀ text, totalOf measure (Node.textsOfList (Node.ofText text)) = measure text := by
    intro text
    unfold Node.ofText
    split
    · next hempty => simp [Node.textsOfList, totalOf, hempty, hmeasure]
    · simp [Node.textsOfList, Node.texts, totalOf]
  simp only [probe, textsOfList_append, Node.textsOfList, Node.texts, List.nil_append,
    totalOf_append, htext]
  omega

/-- If a pass changes nothing but the second text, then the next pass starts with that one
changed. -/
theorem settle_probe {region₂ : Region} (hfirst : minified .markup first = first)
    (hregion : (minifyText .markup first).2 = region₂) (hsecond : minified region₂ second ≠ second)
    (hthird : ∀ region, minified region third = third)
    (hlast : minified (minifyText (minifyText region₂ second).2 third).2 last = last) :
    settle .none .markup (probe first second third last) =
      settle .none .markup (probe first (minified region₂ second) third last) := by
  have hpass : (Node.minifyList .none .markup (probe first second third last)).nodes =
      probe first (minified region₂ second) third last := by
    rw [Node.minifyList_nodes, rewriteList_probe minified (fun r => by simp [minified]), hfirst,
      hregion, hthird, hlast]
  rw [settle, hpass, if_pos]
  have hsmaller := smaller_minified region₂ second
  have hlength := hsmaller.length_le
  rw [String.length_toList, String.length_toList] at hlength
  have hodd : oddBlanks (minified region₂ second) ≤ oddBlanks second := hsmaller.odd_le
  have hchanged : ¬((minified region₂ second).length = second.length ∧
      oddBlanks (minified region₂ second) = oddBlanks second) :=
    fun h => hsecond (minified_eq h.1 h.2)
  rw [measureLess_iff]
  simp only [textMeasure, totalOf_probe String.length_empty,
    totalOf_probe (show oddBlanks "" = 0 from rfl)]
  omega

/-- **Late changes.** If the second text of a probe changes in some passes before the last text is
taken to be outside of raw elements, and the last text stays the same in these passes, then what the
optimized probe writes is no longer than the other texts, the values, and the last text minified. -/
theorem length_settle_probe (hvalue : escapeText value = value) (callables : Callables)
    {region₂ : Region} (hfirst : minified .markup first = first)
    (hregion : (minifyText .markup first).2 = region₂) (hthird : ∀ region, minified region third = third)
    (n : Nat) (second : String)
    (hsteps : ∀ i < n, minifiedTimes (i + 1) region₂ second ≠ minifiedTimes i region₂ second ∧
      minified (minifyText (minifyText region₂ (minifiedTimes i region₂ second)).2 third).2 last =
        last)
    (htold : (minifyText (minifyText region₂ (minifiedTimes n region₂ second)).2 third).2 = .markup) :
    ∃ p, Node.renderList ⟨callables, []⟩ [] (.ofJson (valueData value))
        (settle .none .markup (probe first second third last)).1 = .ok p ∧
      (written p).length ≤ first.toList.length + second.toList.length + third.toList.length +
        (minified .markup last).toList.length + 3 * value.toList.length := by
  induction n generalizing second with
  | zero =>
    change (minifyText (minifyText region₂ second).2 third).2 = .markup at htold
    have hpass : (Node.minifyList .none .markup (probe first second third last)).nodes =
        probe first (minified region₂ second) third (minified .markup last) := by
      rw [Node.minifyList_nodes, rewriteList_probe minified (fun r => by simp [minified]), hfirst,
        hregion, hthird, htold]
    obtain ⟨p, hp, hwritten⟩ := @renderList_probe first (minified region₂ second) third
      (minified .markup last) value hvalue callables
    have hoverrides : ∀ name body, overrideOf [] name = some body →
        AllOf (fun _ => True) (Node.textsOfList body) := by
      intro name body ho
      cases ho
    have hsettled := renderList_settle_of_pass (comparable_edits callables)
      Relation.ReflTransGen.trans allows_edits hoverrides .none .markup []
      (.ofJson (valueData value)) trivial (probe first second third last) (fun _ _ => trivial)
    rw [hpass, hp] at hsettled
    obtain ⟨q, hq, hedits⟩ := hsettled
    refine ⟨q, hq, ?_⟩
    have hshorter := length_le_of_edits hedits
    have hsecond := length_minified_le region₂ second
    rw [hwritten, length_probeOutput] at hshorter
    omega
  | succ n ih =>
    obtain ⟨hchanged, hlast⟩ := hsteps 0 (Nat.succ_pos n)
    have hlonger := length_minified_le region₂ second
    obtain ⟨p, hp, hlength⟩ := ih (minified region₂ second)
      (fun i hi => by
        rw [minifiedTimes_minified, minifiedTimes_minified]
        exact hsteps (i + 1) (by omega))
      (by rwa [minifiedTimes_minified])
    refine ⟨p, ?_, by omega⟩
    rw [settle_probe hfirst hregion (show minified region₂ second ≠ second from hchanged) hthird
      (show minified (minifyText (minifyText region₂ second).2 third).2 last = last from hlast)]
    exact hp

end Probe

end Hashmark
