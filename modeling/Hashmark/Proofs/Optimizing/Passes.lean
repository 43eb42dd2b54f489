import Hashmark.Engine
import Hashmark.Proofs.Optimizing.Preparation

/-!
# What passes do to what is written

A pass minifies the texts of nodes, each from some region, and keeps everything else. So if a
relation holds between a text and the same text minified, from whatever region, it holds between
what nodes write before and after a pass (`Node.renderList_minifyList`), before and after all passes
(`renderList_settle`), and between what an artifact writes before and after it is optimized
(`Artifact.render_optimize`).
-/

namespace Hashmark

/-- Whether a relation holds between some texts and the same texts minified from any region, when
the texts are of a kind that minifying keeps. -/
structure Allows (R : List Char → List Char → Prop) (Kind : String → Prop) : Prop where
  self : ∀ {text}, Kind text → R text.toList text.toList
  minify : ∀ {text} region, Kind text →
    Kind (minifyText region text).1 ∧ R text.toList (minifyText region text).1.toList

variable {R : List Char → List Char → Prop} {Good : Scopes → Prop} {Kind : String → Prop}

theorem Allows.regards (h : Allows R Kind) {texts : List String} (ht : AllOf Kind texts) :
    Regards R texts :=
  fun text htext => h.self (ht text htext)

/-! ### One pass -/

theorem textsOfList_append (nodes more : List Node) :
    Node.textsOfList (nodes ++ more) = Node.textsOfList nodes ++ Node.textsOfList more := by
  induction nodes with
  | nil => rfl
  | cons node nodes ih => simp [Node.textsOfList, ih]

mutual

/-- The texts of a node stay of their kind. -/
theorem Node.texts_minify (h : Allows R Kind) (facts : OverrideFacts) (region : Region) :
    ∀ node : Node, AllOf Kind node.texts → AllOf Kind (Node.textsOfList (node.minify facts region).nodes)
  | .text content, ht => by
    have hkind := (h.minify region (allOf_singleton.1 ht)).1
    simp only [Node.minify]
    split
    · simp [Node.textsOfList]
    · simpa [Node.textsOfList, Node.texts] using hkind
  | .comment _, _ => by simp [Node.minify, Node.textsOfList, Node.texts]
  | .connect _, _ => by simp [Node.minify, Node.textsOfList, Node.texts]
  | .yield _ _, _ => by simp [Node.minify, Node.textsOfList, Node.texts]
  | .emit _, _ => by simp [Node.minify, Node.textsOfList, Node.texts]
  | .choose branches otherwise, ht => by
    obtain ⟨hb, ho⟩ := allOf_append.1 ht
    have hb' := Node.texts_minifyBranches h facts region branches hb
    cases otherwise with
    | none =>
      simpa [Node.minify, Node.minifyOption, Node.textsOfList, Node.texts, Node.textsOfOption]
        using hb'
    | some body =>
      have ho' := Node.texts_minifyList h facts region body ho
      simpa [Node.minify, Node.minifyOption, Node.textsOfList, Node.texts, Node.textsOfOption]
        using ⟨hb', ho'⟩
  | .forEach source key value body, ht => by
    simp only [Node.minify]
    split
    · simpa [Node.textsOfList, Node.texts] using Node.texts_minifyList h facts region body ht
    · simpa [Node.textsOfList, Node.texts] using Node.texts_minifyList h facts .unknown body ht
  | .block name body, ht => by
    simp only [Node.minify]
    split
    · simpa [Node.textsOfList, Node.texts] using Node.texts_minifyList h facts .unknown body ht
    · simpa [Node.textsOfList, Node.texts] using Node.texts_minifyList h facts region body ht

/-- The texts of nodes stay of their kind. -/
theorem Node.texts_minifyList (h : Allows R Kind) (facts : OverrideFacts) (region : Region) :
    ∀ nodes : List Node, AllOf Kind (Node.textsOfList nodes) →
      AllOf Kind (Node.textsOfList (Node.minifyList facts region nodes).nodes)
  | [], _ => by simp [Node.minifyList, Node.textsOfList]
  | node :: nodes, ht => by
    obtain ⟨hn, hns⟩ := allOf_append.1 ht
    simp only [Node.minifyList, textsOfList_append]
    exact allOf_append.2
      ⟨Node.texts_minify h facts region node hn, Node.texts_minifyList h facts _ nodes hns⟩

/-- The texts of branches stay of their kind. -/
theorem Node.texts_minifyBranches (h : Allows R Kind) (facts : OverrideFacts) (region : Region) :
    ∀ branches : List (Expr × List Node), AllOf Kind (Node.textsOfBranches branches) →
      AllOf Kind (Node.textsOfBranches (Node.minifyBranches facts region branches).branches)
  | [], _ => by simp [Node.minifyBranches, Node.textsOfBranches]
  | (condition, body) :: branches, ht => by
    obtain ⟨hb, hbs⟩ := allOf_append.1 ht
    simp only [Node.minifyBranches, Node.textsOfBranches]
    exact allOf_append.2 ⟨Node.texts_minifyList h facts region body hb,
      Node.texts_minifyBranches h facts region branches hbs⟩

end

/-- The text that takes the place of a text. -/
theorem renderList_minifyText (t : Setting) (facts : OverrideFacts) (region : Region)
    (active : List String) (s : Scopes) (content : String) :
    ∃ p, Node.renderList t active s (Node.minify facts region (.text content)).nodes = .ok p ∧
      written p = (minifyText region content).1.toList := by
  simp only [Node.minify]
  split
  · next hempty => exact ⟨[], by rw [Node.renderList], by simp [hempty]⟩
  · exact ⟨_, by rw [renderList_singleton, Node.render], by simp⟩

section Pass

variable {callables : Callables} {overrides : List Override}

/-- An override writes what is related to itself. -/
theorem renderList_override (hR : Comparable R callables Good) (h : Allows R Kind)
    (hoverrides : ∀ name body, overrideOf overrides name = some body →
      AllOf Kind (Node.textsOfList body)) {name : String} {body : List Node}
    (ho : overrideOf overrides name = some body) (active : List String) {s : Scopes} (hs : Good s) :
    Simulates R (Node.renderList ⟨callables, overrides⟩ active s body)
      (Node.renderList ⟨callables, overrides⟩ active s body) :=
  Node.renderList_self hR (fun name body ho => h.regards (hoverrides name body ho)) active s body hs
    (h.regards (hoverrides name body ho))

mutual

/-- A node writes related texts before and after a pass. -/
theorem Node.renderList_minify (hR : Comparable R callables Good) (h : Allows R Kind)
    (hoverrides : ∀ name body, overrideOf overrides name = some body →
      AllOf Kind (Node.textsOfList body)) (facts : OverrideFacts) (region : Region)
    (active : List String) (s : Scopes) (hs : Good s) : ∀ node : Node, AllOf Kind node.texts →
      Simulates R (node.render ⟨callables, overrides⟩ active s)
        (Node.renderList ⟨callables, overrides⟩ active s (node.minify facts region).nodes)
  | .text content, ht => by
    obtain ⟨p, hp, hwritten⟩ := renderList_minifyText ⟨callables, overrides⟩ facts region active s
      content
    rw [Node.render, hp]
    exact .ok (by simpa [hwritten] using (h.minify region (allOf_singleton.1 ht)).2)
  | .comment _, _ => by
    rw [Node.minify, renderList_singleton, Node.render]
    exact .ok hR.congruent.nil
  | .connect _, _ => by
    rw [Node.minify, renderList_singleton, Node.render]
    exact .ok hR.congruent.nil
  | .emit value, _ => by
    rw [Node.minify, renderList_singleton, Node.render]
    exact .bind _ fun v hv => .ok (by simpa using hR.emit hs hv)
  | .yield name default, _ => by
    rw [Node.minify, renderList_singleton]
    cases ho : overrideOf overrides name with
    | none =>
      rw [render_yield_default ho]
      exact hR.simulates_default default
    | some override =>
      by_cases hactive : name ∈ active
      · rw [render_yield_active hactive ho]
        exact .ok hR.congruent.nil
      · rw [render_yield_override hactive ho]
        exact renderList_override hR h hoverrides ho _ hs
  | .choose branches otherwise, ht => by
    obtain ⟨hb, ho⟩ := allOf_append.1 ht
    cases otherwise with
    | none =>
      simp only [Node.minify, Node.minifyOption]
      rw [renderList_singleton, Node.render, Node.render]
      refine Node.renderChoice_minifyBranches hR h hoverrides facts region active s hs ?_ branches hb
      rw [Node.renderChoice]
      exact .ok hR.congruent.nil
    | some body =>
      simp only [Node.minify, Node.minifyOption]
      rw [renderList_singleton, Node.render, Node.render]
      refine Node.renderChoice_minifyBranches hR h hoverrides facts region active s hs ?_ branches hb
      rw [Node.renderChoice, Node.renderChoice]
      exact Node.renderList_minifyList hR h hoverrides facts region active s hs body ho
  | .forEach source key value body, ht => by
    have hpass : ∀ region', Simulates R
        (Node.render ⟨callables, overrides⟩ active s (.forEach source key value body))
        (Node.render ⟨callables, overrides⟩ active s
          (.forEach source key value (Node.minifyList facts region' body).nodes)) := by
      intro region'
      rw [Node.render, Node.render]
      exact .bind _ fun v hv => .passes hR.congruent fun s' hs' =>
        Node.renderList_minifyList hR h hoverrides facts region' active s' (hR.passes hs hv hs') body
          ht
    simp only [Node.minify]
    split
    · rw [renderList_singleton]; exact hpass region
    · rw [renderList_singleton]; exact hpass .unknown
  | .block name body, ht => by
    have hpass : ∀ region', Simulates R
        (Node.render ⟨callables, overrides⟩ active s (.block name body))
        (Node.render ⟨callables, overrides⟩ active s
          (.block name (Node.minifyList facts region' body).nodes)) := by
      intro region'
      by_cases hactive : name ∈ active
      · rw [render_block_active hactive, render_block_active hactive]
        exact .ok hR.congruent.nil
      · cases ho : overrideOf overrides name with
        | none =>
          rw [render_block_own hactive ho, render_block_own hactive ho]
          exact Node.renderList_minifyList hR h hoverrides facts region' (name :: active) s hs body ht
        | some override =>
          rw [render_block_override hactive ho, render_block_override hactive ho]
          exact renderList_override hR h hoverrides ho _ hs
    simp only [Node.minify]
    split
    · rw [renderList_singleton]; exact hpass .unknown
    · rw [renderList_singleton]; exact hpass region

/-- **One pass.** Nodes write related texts before and after a pass. -/
theorem Node.renderList_minifyList (hR : Comparable R callables Good) (h : Allows R Kind)
    (hoverrides : ∀ name body, overrideOf overrides name = some body →
      AllOf Kind (Node.textsOfList body)) (facts : OverrideFacts) (region : Region)
    (active : List String) (s : Scopes) (hs : Good s) : ∀ nodes : List Node,
      AllOf Kind (Node.textsOfList nodes) →
      Simulates R (Node.renderList ⟨callables, overrides⟩ active s nodes)
        (Node.renderList ⟨callables, overrides⟩ active s
          (Node.minifyList facts region nodes).nodes)
  | [], _ => by
    rw [Node.minifyList, Node.renderList]
    exact .ok hR.congruent.nil
  | node :: nodes, ht => by
    obtain ⟨hn, hns⟩ := allOf_append.1 ht
    simp only [Node.minifyList]
    rw [Node.renderList, renderList_append]
    exact .append hR.congruent
      (Node.renderList_minify hR h hoverrides facts region active s hs node hn)
      (Node.renderList_minifyList hR h hoverrides facts _ active s hs nodes hns)

/-- The branches of a choice write related texts before and after a pass. -/
theorem Node.renderChoice_minifyBranches (hR : Comparable R callables Good) (h : Allows R Kind)
    (hoverrides : ∀ name body, overrideOf overrides name = some body →
      AllOf Kind (Node.textsOfList body)) (facts : OverrideFacts) (region : Region)
    (active : List String) (s : Scopes) (hs : Good s) {otherwise otherwise' : Option (List Node)}
    (ho : Simulates R (Node.renderChoice ⟨callables, overrides⟩ active s [] otherwise)
      (Node.renderChoice ⟨callables, overrides⟩ active s [] otherwise')) :
    ∀ branches : List (Expr × List Node), AllOf Kind (Node.textsOfBranches branches) →
      Simulates R (Node.renderChoice ⟨callables, overrides⟩ active s branches otherwise)
        (Node.renderChoice ⟨callables, overrides⟩ active s
          (Node.minifyBranches facts region branches).branches otherwise')
  | [], _ => ho
  | (condition, body) :: branches, ht => by
    obtain ⟨hb, hbs⟩ := allOf_append.1 ht
    simp only [Node.minifyBranches]
    rw [Node.renderChoice, Node.renderChoice]
    refine .bind _ fun v _ => ?_
    split
    · exact Node.renderList_minifyList hR h hoverrides facts region active s hs body hb
    · exact Node.renderChoice_minifyBranches hR h hoverrides facts region active s hs ho branches hbs

end

/-! ### All passes -/

/-- What one pass preserves, all passes preserve. -/
theorem settle_induction {motive : List Node → Prop} (facts : OverrideFacts) (start : Region)
    (hpass : ∀ nodes, motive nodes → motive (Node.minifyList facts start nodes).nodes)
    (nodes : List Node) (h : motive nodes) : motive (settle facts start nodes).1 := by
  induction nodes using settle.induct facts start with
  | case1 nodes pass hless ih =>
    rw [settle, if_pos hless]
    exact ih (hpass nodes h)
  | case2 nodes pass hless =>
    rw [settle, if_neg hless]
    exact hpass nodes h

theorem texts_settle (h : Allows R Kind) (facts : OverrideFacts) (start : Region)
    (nodes : List Node) (ht : AllOf Kind (Node.textsOfList nodes)) :
    AllOf Kind (Node.textsOfList (settle facts start nodes).1) :=
  settle_induction facts start (Node.texts_minifyList h facts start) nodes ht

/-- **All passes.** Nodes write related texts before and after they are minified until nothing
changes. -/
theorem renderList_settle (hR : Comparable R callables Good)
    (htrans : ∀ {a b c}, R a b → R b c → R a c) (h : Allows R Kind)
    (hoverrides : ∀ name body, overrideOf overrides name = some body →
      AllOf Kind (Node.textsOfList body)) (facts : OverrideFacts) (start : Region)
    (active : List String) (s : Scopes) (hs : Good s) (nodes : List Node)
    (ht : AllOf Kind (Node.textsOfList nodes)) :
    Simulates R (Node.renderList ⟨callables, overrides⟩ active s nodes)
      (Node.renderList ⟨callables, overrides⟩ active s (settle facts start nodes).1) := by
  have hpass := fun nodes (ht : AllOf Kind (Node.textsOfList nodes)) =>
    Node.renderList_minifyList hR h hoverrides facts start active s hs nodes ht
  induction nodes using settle.induct facts start with
  | case1 nodes pass hless ih =>
    rw [settle, if_pos hless]
    exact .trans htrans (hpass nodes ht) (ih (Node.texts_minifyList h facts start nodes ht))
  | case2 nodes pass hless =>
    rw [settle, if_neg hless]
    exact hpass nodes ht

/-- The passes after the first one: nodes write what relates to what they write after one pass. -/
theorem renderList_settle_of_pass (hR : Comparable R callables Good)
    (htrans : ∀ {a b c}, R a b → R b c → R a c) (h : Allows R Kind)
    (hoverrides : ∀ name body, overrideOf overrides name = some body →
      AllOf Kind (Node.textsOfList body)) (facts : OverrideFacts) (start : Region)
    (active : List String) (s : Scopes) (hs : Good s) (nodes : List Node)
    (ht : AllOf Kind (Node.textsOfList (Node.minifyList facts start nodes).nodes)) :
    Simulates R
      (Node.renderList ⟨callables, overrides⟩ active s (Node.minifyList facts start nodes).nodes)
      (Node.renderList ⟨callables, overrides⟩ active s (settle facts start nodes).1) := by
  rw [settle]
  split
  · exact renderList_settle hR htrans h hoverrides facts start active s hs _ ht
  · exact Node.renderList_self hR (fun name body ho => h.regards (hoverrides name body ho)) active s
      _ hs (h.regards ht)

end Pass

/-! ### Artifacts -/

/-- The override of a name is minified from the region in which it is entered. -/
theorem overrideOf_optimizeOverrides (facts : OverrideFacts) (entry : String → Region)
    (overrides : List Override) (seen : List String) (name : String) :
    overrideOf (optimizeOverrides facts entry seen overrides) name =
      (overrideOf overrides name).map fun body =>
        (settle facts (if seen.contains name then .unknown else entry name) body).1 := by
  induction overrides generalizing seen with
  | nil => rfl
  | cons o os ih =>
    by_cases h : o.name = name
    · subst h
      simp [optimizeOverrides, overrideOf]
    · have hrest := ih (o.name :: seen)
      simpa [optimizeOverrides, overrideOf, h, Ne.symm h] using hrest

/-- The nodes of an artifact and of its overrides once they are prepared. -/
def Artifact.preparedBody (a : Artifact) : List Node :=
  prepare a.body

/-- The overrides of an artifact once they are prepared. -/
def Artifact.preparedSections (a : Artifact) : List Override :=
  a.sections.map fun o => { o with body := prepare o.body }

/-- What is known about the overrides of an artifact when its nodes are minified. -/
def Artifact.overrideFacts (a : Artifact) : OverrideFacts :=
  let live := liveOverrides [] a.preparedSections
  { names? := some (live.map Override.name), changing := changingNames live live.length }

/-- The body of an artifact once it is optimized, and the overrides that it enters. -/
def Artifact.settledBody (a : Artifact) : List Node × List Visit :=
  settle a.overrideFacts .markup a.preparedBody

/-- The region in which an override of an artifact is entered. -/
def Artifact.entry (a : Artifact) : String → Region :=
  entryRegion a.settledBody.2 <|
    (liveOverrides [] a.preparedSections).flatMap fun o => Node.partNamesOfList o.body

theorem Artifact.optimize_body (a : Artifact) : a.optimize.body = a.settledBody.1 := rfl

theorem Artifact.overrideOf_optimize (a : Artifact) (name : String) :
    overrideOf a.optimize.sections name =
      (overrideOf a.preparedSections name).map fun body =>
        (settle a.overrideFacts (a.entry name) body).1 :=
  overrideOf_optimizeOverrides a.overrideFacts a.entry a.preparedSections [] name

/-- The texts of an artifact that the passes start from. -/
def Artifact.preparedTexts (a : Artifact) : List String :=
  Node.textsOfList a.preparedBody ++
    a.preparedSections.flatMap fun o => Node.textsOfList o.body

theorem texts_preparedSections {a : Artifact} (ht : AllOf Kind a.preparedTexts) {name : String}
    {body : List Node} (h : overrideOf a.preparedSections name = some body) :
    AllOf Kind (Node.textsOfList body) := by
  obtain ⟨o, ho, -, rfl⟩ := mem_of_overrideOf h
  exact fun text htext => ht text
    (List.mem_append_right _ (List.mem_flatMap.2 ⟨o, ho, htext⟩))

/-- **Optimizing parts.** The body writes related texts before and after it is optimized together
with its overrides. -/
theorem renderList_optimize {callables : Callables} (hR : Comparable R callables Good)
    (htrans : ∀ {a b c}, R a b → R b c → R a c) (h : Allows R Kind) (a : Artifact)
    (ht : AllOf Kind a.preparedTexts) (s : Scopes) (hs : Good s) :
    Simulates R (Node.renderList ⟨callables, a.sections⟩ [] s a.body)
      (Node.renderList ⟨callables, a.optimize.sections⟩ [] s a.optimize.body) := by
  obtain ⟨hbody, -⟩ := allOf_append.1 ht
  have hsections : ∀ name body, overrideOf a.preparedSections name = some body →
      AllOf Kind (Node.textsOfList body) :=
    fun _ _ => texts_preparedSections ht
  have hprepared : Simulates (· = ·) (Node.renderList ⟨callables, a.sections⟩ [] s a.body)
      (Node.renderList ⟨callables, a.preparedSections⟩ [] s a.preparedBody) :=
    renderList_prepareParts callables a.sections [] s a.body
  -- first the body settles, with the overrides as they are, and then the overrides settle
  have hsettled : Simulates R (Node.renderList ⟨callables, a.preparedSections⟩ [] s a.preparedBody)
      (Node.renderList ⟨callables, a.preparedSections⟩ [] s a.optimize.body) :=
    renderList_settle hR htrans h hsections a.overrideFacts .markup [] s hs _ hbody
  refine .of_eq hprepared (.trans htrans hsettled ?_)
  refine Node.renderList_overrides hR (fun name hnone => ?_) (fun name body hsome => ?_) [] s _ hs
    (h.regards (texts_settle h _ _ _ hbody))
  · rw [a.overrideOf_optimize, hnone]
    rfl
  · have hoptimized : ∀ name body, overrideOf a.optimize.sections name = some body →
        AllOf Kind (Node.textsOfList body) := by
      intro name body' h'
      rw [a.overrideOf_optimize, Option.map_eq_some_iff] at h'
      obtain ⟨body, hbody, rfl⟩ := h'
      exact texts_settle h _ _ _ (hsections name body hbody)
    refine ⟨h.regards (hsections name body hsome), (settle a.overrideFacts (a.entry name) body).1,
      ?_, fun active s x hs hx => ?_⟩
    · rw [a.overrideOf_optimize, hsome]
      rfl
    · exact .trans htrans hx (renderList_settle hR htrans h hoptimized _ _ active s hs body
        (hsections name body hsome))

/-- Artifacts of one name write related texts if their bodies do, each with its own overrides. -/
theorem Artifact.render_of_simulates {callables : Callables} {a b : Artifact} {s : Scopes}
    (hname : b.name = a.name)
    (h : Simulates R (Node.renderList ⟨callables, a.sections⟩ [] s a.body)
      (Node.renderList ⟨callables, b.sections⟩ [] s b.body)) :
    match a.render callables s with
    | .error e => b.render callables s = .error e
    | .ok out => ∃ out', b.render callables s = .ok out' ∧ R out.toList out'.toList := by
  unfold Artifact.render
  cases hx : Node.renderList ⟨callables, a.sections⟩ [] s a.body with
  | error e =>
    rw [hx] at h
    rw [h, hname]
  | ok p =>
    rw [hx] at h
    obtain ⟨q, hq, hpq⟩ := h
    rw [hq]
    exact ⟨_, rfl, by rwa [String.toList_join, String.toList_join]⟩

/-- **Optimizing an artifact.** An artifact writes related texts before and after it is optimized,
or fails in the same way. -/
theorem Artifact.render_optimize {callables : Callables} (hR : Comparable R callables Good)
    (htrans : ∀ {a b c}, R a b → R b c → R a c) (h : Allows R Kind) (a : Artifact)
    (ht : AllOf Kind a.preparedTexts) (s : Scopes) (hs : Good s) :
    match a.render callables s with
    | .error e => a.optimize.render callables s = .error e
    | .ok out => ∃ out', a.optimize.render callables s = .ok out' ∧ R out.toList out'.toList :=
  Artifact.render_of_simulates rfl (renderList_optimize hR htrans h a ht s hs)

end Hashmark
