import Hashmark.Optimize.Minify
import Hashmark.Render

/-!
# Comparing renderings

Two renderings are compared by what they write: a relation on texts that respects concatenation
(`Congruent`) is extended to results, where faults have to be the same (`Simulates`).

Two renderings of the same nodes, in two settings and in scopes of their own, go on in step. Which
relation they keep is a matter of single steps (`Lockstep`), and one induction carries it over whole
renderings (`Node.renderList_lockstep`). So a node writes related texts before and after a change of
overrides if the bodies of the overrides do (`Node.renderList_overrides`).
-/

namespace Hashmark

/-- What some pieces are when they are written one after the other. -/
def written (pieces : List String) : List Char :=
  pieces.flatMap String.toList

@[simp] theorem written_nil : written [] = [] := rfl

@[simp] theorem written_cons (piece : String) (pieces : List String) :
    written (piece :: pieces) = piece.toList ++ written pieces := rfl

@[simp] theorem written_append (p q : List String) : written (p ++ q) = written p ++ written q :=
  List.flatMap_append

/-- A relation on texts that respects concatenation. -/
structure Congruent (R : List Char → List Char → Prop) : Prop where
  nil : R [] []
  append : ∀ {x y x' y'}, R x y → R x' y' → R (x ++ x') (y ++ y')

/-- Whether two results are the same fault, or both write something and the texts are related. -/
def Simulates (R : List Char → List Char → Prop) (x y : Except ε (List String)) : Prop :=
  match x with
  | .error e => y = .error e
  | .ok p => ∃ q, y = .ok q ∧ R (written p) (written q)

namespace Simulates

variable {ε : Type} {R : List Char → List Char → Prop} {x y z x' y' : Except ε (List String)}

theorem of_forall_ok (h : ∀ p, x = .ok p → R (written p) (written p)) : Simulates R x x := by
  cases x with
  | error e => rfl
  | ok p => exact ⟨p, rfl, h p rfl⟩

theorem ok {p q : List String} (h : R (written p) (written q)) :
    Simulates R (ε := ε) (.ok p) (.ok q) :=
  ⟨q, rfl, h⟩

theorem mono {R' : List Char → List Char → Prop} (h : Simulates R x y)
    (hR : ∀ {a b}, R a b → R' a b) : Simulates R' x y := by
  cases x with
  | error e => exact h
  | ok p =>
    obtain ⟨q, rfl, hpq⟩ := h
    exact ⟨q, rfl, hR hpq⟩

/-- One comparison after the other. -/
theorem comp {R' R'' : List Char → List Char → Prop} (h : Simulates R x y)
    (h' : Simulates R' y z) (hR : ∀ {a b c}, R a b → R' b c → R'' a c) : Simulates R'' x z := by
  cases x with
  | error e => cases h; exact h'
  | ok p =>
    obtain ⟨q, rfl, hpq⟩ := h
    obtain ⟨r, rfl, hqr⟩ := h'
    exact ⟨r, rfl, hR hpq hqr⟩

theorem trans (hR : ∀ {a b c}, R a b → R b c → R a c) (h : Simulates R x y)
    (h' : Simulates R y z) : Simulates R x z :=
  h.comp h' hR

theorem of_eq (h : Simulates (· = ·) x y) (h' : Simulates R y z) : Simulates R x z :=
  h.comp h' fun hab hbc => hab ▸ hbc

/-- A step that reads nothing but a value comes first on both sides. -/
theorem bind {α : Type} (v : Except ε α) {f g : α → Except ε (List String)}
    (h : ∀ a, v = .ok a → Simulates R (f a) (g a)) : Simulates R (v >>= f) (v >>= g) := by
  cases v with
  | error e => rfl
  | ok a => exact h a rfl

/-- One text after the other, where the second comparison may depend on the first. -/
theorem append_of {R₁ R₂ : List Char → List Char → Prop} (h : Simulates R₁ x y)
    (h' : ∀ {p q}, R₁ p q → Simulates (fun p' q' => R₂ (p ++ p') (q ++ q')) x' y') :
    Simulates R₂ (do let p ← x; let q ← x'; pure (p ++ q))
      (do let p ← y; let q ← y'; pure (p ++ q)) := by
  cases x with
  | error e => cases h; rfl
  | ok p =>
    obtain ⟨q, rfl, hpq⟩ := h
    cases x' with
    | error e => cases h' hpq; rfl
    | ok p' =>
      obtain ⟨q', rfl, hpq'⟩ := h' hpq
      exact ⟨q ++ q', rfl, by simpa using hpq'⟩

/-- One text after the other. -/
theorem append (hR : Congruent R) (h : Simulates R x y) (h' : Simulates R x' y') :
    Simulates R (do let p ← x; let q ← x'; pure (p ++ q))
      (do let p ← y; let q ← y'; pure (p ++ q)) :=
  append_of h fun hpq => h'.mono fun hpq' => hR.append hpq hpq'

/-- A loop writes its first pass and then the others. -/
theorem passes_cons {α : Type} (f : α → Except ε (List String)) (a : α) (items : List α) :
    (do let ps ← (a :: items).mapM f; pure ps.flatten) =
      (do let p ← f a; let q ← (do let ps ← items.mapM f; pure ps.flatten); pure (p ++ q)) := by
  rw [List.mapM_cons]
  cases f a with
  | error e => rfl
  | ok p => cases items.mapM f <;> rfl

/-- The passes of a loop, one after the other. -/
theorem passes (hR : Congruent R) {α : Type} {f g : α → Except ε (List String)} {items : List α}
    (h : ∀ a ∈ items, Simulates R (f a) (g a)) :
    Simulates R (do let ps ← items.mapM f; pure ps.flatten)
      (do let ps ← items.mapM g; pure ps.flatten) := by
  induction items with
  | nil => exact ok hR.nil
  | cons a items ih =>
    rw [passes_cons, passes_cons]
    exact append hR (h a (by simp)) (ih fun b hb => h b (by simp [hb]))

end Simulates

/-! ### Blocks and yields -/

section Equations

variable {t : Setting} {active : List String} {s : Scopes} {name : String}

theorem render_block_active (h : name ∈ active) (body : List Node) :
    Node.render t active s (.block name body) = .ok [] := by
  rw [Node.render, dif_pos h]

theorem render_block_override {override : List Node} (h : name ∉ active)
    (ho : overrideOf t.overrides name = some override) (body : List Node) :
    Node.render t active s (.block name body) = Node.renderList t (name :: active) s override := by
  rw [Node.render, dif_neg h]
  split
  · next o ho' => rw [ho] at ho'; cases ho'; rfl
  · next ho' => rw [ho] at ho'; cases ho'

theorem render_block_own (h : name ∉ active) (ho : overrideOf t.overrides name = none)
    (body : List Node) :
    Node.render t active s (.block name body) = Node.renderList t (name :: active) s body := by
  rw [Node.render, dif_neg h]
  split
  · next o ho' => rw [ho] at ho'; cases ho'
  · rfl

theorem render_yield_active {override : List Node} (h : name ∈ active)
    (ho : overrideOf t.overrides name = some override) (default : Option String) :
    Node.render t active s (.yield name default) = .ok [] := by
  rw [Node.render]
  split
  · exact dif_pos h
  · next ho' => rw [ho] at ho'; cases ho'

theorem render_yield_override {override : List Node} (h : name ∉ active)
    (ho : overrideOf t.overrides name = some override) (default : Option String) :
    Node.render t active s (.yield name default) =
      Node.renderList t (name :: active) s override := by
  rw [Node.render]
  split
  · next o ho' => rw [ho] at ho'; cases ho'; exact dif_neg h
  · next ho' => rw [ho] at ho'; cases ho'

theorem render_yield_default (ho : overrideOf t.overrides name = none)
    (default : Option String) :
    Node.render t active s (.yield name default) = .ok (default.toList.map escapeText) := by
  rw [Node.render]
  split
  · next o ho' => rw [ho] at ho'; cases ho'
  · rfl

end Equations

/-! ### Two renderings of the same nodes -/

/-- Whether some texts are all of a kind. -/
def AllOf (Kind : String → Prop) (texts : List String) : Prop :=
  ∀ text ∈ texts, Kind text

section AllOf

variable {Kind : String → Prop}

@[simp] theorem allOf_nil : AllOf Kind [] :=
  fun _ h => nomatch h

@[simp] theorem allOf_singleton {text : String} : AllOf Kind [text] ↔ Kind text :=
  List.forall_mem_singleton

@[simp] theorem allOf_append {texts more : List String} :
    AllOf Kind (texts ++ more) ↔ AllOf Kind texts ∧ AllOf Kind more :=
  List.forall_mem_append

end AllOf

/-- Whether some texts and some expressions are all of two kinds. -/
structure Covered (TextOk : String → Prop) (ExprOk : Expr → Prop) (texts : List String)
    (es : List Expr) : Prop where
  texts : AllOf TextOk texts
  exprs : ∀ e ∈ es, ExprOk e

section Covered

variable {TextOk : String → Prop} {ExprOk : Expr → Prop} {texts more : List String}
  {es es' : List Expr} {e : Expr}

theorem Covered.append (h : Covered TextOk ExprOk (texts ++ more) (es ++ es')) :
    Covered TextOk ExprOk texts es ∧ Covered TextOk ExprOk more es' := by
  obtain ⟨htexts, hmore⟩ := allOf_append.1 h.texts
  obtain ⟨hes, hes'⟩ := List.forall_mem_append.1 h.exprs
  exact ⟨⟨htexts, hes⟩, ⟨hmore, hes'⟩⟩

theorem Covered.cons (h : Covered TextOk ExprOk texts (e :: es)) :
    ExprOk e ∧ Covered TextOk ExprOk texts es := by
  obtain ⟨he, hes⟩ := List.forall_mem_cons.1 h.exprs
  exact ⟨he, h.texts, hes⟩

end Covered

/-- What carries a relation between outcomes over two renderings of the same nodes, in two settings
and in scopes that are near one another: a clause for each way in which a rendering goes on. The
clauses need not cover all texts and all expressions. -/
structure Lockstep (t t' : Setting) (Near : Scopes → Scopes → Prop) (TextOk : String → Prop)
    (ExprOk : Expr → Prop)
    (R : Except CallFault (List String) → Except CallFault (List String) → Prop) : Prop where
  nothing : R (.ok []) (.ok [])
  text : ∀ {content}, TextOk content → R (.ok [content]) (.ok [content])
  default : ∀ default : Option String,
    R (.ok (default.toList.map escapeText)) (.ok (default.toList.map escapeText))
  emit : ∀ {s s' e}, Near s s' → ExprOk e →
    R (do let v ← e.eval t.callables s; pure [escape v])
      (do let v ← e.eval t'.callables s'; pure [escape v])
  append : ∀ {x x' y y'}, R x x' → R y y' →
    R (do let p ← x; let q ← y; pure (p ++ q)) (do let p ← x'; let q ← y'; pure (p ++ q))
  branch : ∀ {s s' e x x' y y'}, Near s s' → ExprOk e → R x x' → R y y' →
    R (do let v ← e.eval t.callables s; if v.isTruthy then x else y)
      (do let v ← e.eval t'.callables s'; if v.isTruthy then x' else y')
  loop : ∀ {s s' e key name f f'}, Near s s' → ExprOk e → (∀ r r', Near r r' → R (f r) (f' r')) →
    R (do let v ← e.eval t.callables s; let ps ← (s.passes key name v).mapM f; pure ps.flatten)
      (do let v ← e.eval t'.callables s'; let ps ← (s'.passes key name v).mapM f'; pure ps.flatten)
  absent : ∀ {name}, overrideOf t.overrides name = none → overrideOf t'.overrides name = none
  override : ∀ {name body}, overrideOf t.overrides name = some body →
    Covered TextOk ExprOk (Node.textsOfList body) (Node.exprsOfList body) ∧
      ∃ body', overrideOf t'.overrides name = some body' ∧ ∀ {active s s' x}, Near s s' →
        R x (Node.renderList t' active s' body) → R x (Node.renderList t' active s' body')

/-- **Renderings in lockstep.** A relation that is carried over two renderings holds of their
outcomes, if the nodes have texts and expressions that the clauses cover. -/
theorem Node.renderList_lockstep {t t' : Setting} {Near : Scopes → Scopes → Prop}
    {TextOk : String → Prop} {ExprOk : Expr → Prop}
    {R : Except CallFault (List String) → Except CallFault (List String) → Prop}
    (h : Lockstep t t' Near TextOk ExprOk R) (active : List String) {s s' : Scopes}
    (nodes : List Node) (hs : Near s s')
    (hnodes : Covered TextOk ExprOk (Node.textsOfList nodes) (Node.exprsOfList nodes)) :
    R (Node.renderList t active s nodes) (Node.renderList t' active s' nodes) := by
  -- by induction on the first rendering; the second one is in whatever scopes are near its own
  refine (Node.render.mutual_induct t
    (fun active s node => Covered TextOk ExprOk node.texts node.exprs → ∀ s', Near s s' →
      R (Node.render t active s node) (Node.render t' active s' node))
    (fun active s nodes =>
      Covered TextOk ExprOk (Node.textsOfList nodes) (Node.exprsOfList nodes) →
      ∀ s', Near s s' → R (Node.renderList t active s nodes) (Node.renderList t' active s' nodes))
    (fun active s branches otherwise =>
      Covered TextOk ExprOk (Node.textsOfBranches branches ++ Node.textsOfOption otherwise)
        (Node.exprsOfBranches branches ++ Node.exprsOfOption otherwise) →
      ∀ s', Near s s' →
        R (Node.renderChoice t active s branches otherwise)
          (Node.renderChoice t' active s' branches otherwise))
    ?text ?comment ?connect ?emit ?choose ?forEach ?block_active ?block_override ?block_own
    ?yield_active ?yield_override ?yield_default ?nil ?cons ?otherwise ?no_branch ?branch).2.1
    active s nodes hnodes s' hs
  case text =>
    intro active s content hcovered s' _
    rw [Node.render, Node.render]
    exact h.text (allOf_singleton.1 hcovered.texts)
  case comment | connect =>
    intro active s content _ s' _
    rw [Node.render, Node.render]
    exact h.nothing
  case emit =>
    intro active s value hcovered s' hs
    rw [Node.render, Node.render]
    exact h.emit hs hcovered.cons.1
  case choose =>
    intro active s branches otherwise ih hcovered s' hs
    rw [Node.render, Node.render]
    exact ih hcovered s' hs
  case forEach =>
    intro active s source key value body ih hcovered s' hs
    obtain ⟨hsource, hbody⟩ := hcovered.cons
    rw [Node.render, Node.render]
    exact h.loop hs hsource fun r r' hr => ih r hbody r' hr
  case block_active =>
    intro active s name body hactive _ s' _
    rw [render_block_active hactive, render_block_active hactive]
    exact h.nothing
  case block_override =>
    intro active s name body hactive override ho ih _ s' hs
    obtain ⟨hcovered, body', ho', hbody'⟩ := h.override ho
    rw [render_block_override hactive ho, render_block_override hactive ho']
    exact hbody' hs (ih hcovered s' hs)
  case block_own =>
    intro active s name body hactive ho ih hcovered s' hs
    rw [render_block_own hactive ho, render_block_own hactive (h.absent ho)]
    exact ih hcovered s' hs
  case yield_active =>
    intro active s name default override ho hactive _ s' _
    obtain ⟨-, body', ho', -⟩ := h.override ho
    rw [render_yield_active hactive ho, render_yield_active hactive ho']
    exact h.nothing
  case yield_override =>
    intro active s name default override ho hactive ih _ s' hs
    obtain ⟨hcovered, body', ho', hbody'⟩ := h.override ho
    rw [render_yield_override hactive ho, render_yield_override hactive ho']
    exact hbody' hs (ih hcovered s' hs)
  case yield_default =>
    intro active s name default ho _ s' _
    rw [render_yield_default ho, render_yield_default (h.absent ho)]
    exact h.default default
  case nil =>
    intro active s _ s' _
    rw [Node.renderList, Node.renderList]
    exact h.nothing
  case cons =>
    intro active s node nodes ih ihs hcovered s' hs
    obtain ⟨hnode, hnodes⟩ := hcovered.append
    rw [Node.renderList, Node.renderList]
    exact h.append (ih hnode s' hs) (ihs hnodes s' hs)
  case otherwise =>
    intro active s body ih hcovered s' hs
    rw [Node.renderChoice, Node.renderChoice]
    exact ih hcovered s' hs
  case no_branch =>
    intro active s _ s' _
    rw [Node.renderChoice, Node.renderChoice]
    exact h.nothing
  case branch =>
    intro active s otherwise condition body branches ih ihs hcovered s' hs
    rw [Node.textsOfBranches, Node.exprsOfBranches, List.cons_append, List.append_assoc,
      List.append_assoc] at hcovered
    obtain ⟨hcondition, hrest⟩ := hcovered.cons
    obtain ⟨hbody, hbranches⟩ := hrest.append
    rw [Node.renderChoice, Node.renderChoice]
    exact h.branch hs hcondition (ih hbody s' hs) (ihs hbranches s' hs)

/-! ### A change of overrides -/

/-- A relation on texts that can compare renderings: it respects concatenation, and does not tell
apart what a marker emits from itself, as long as the variables in view are good ones. -/
structure Comparable (R : List Char → List Char → Prop) (callables : Callables)
    (Good : Scopes → Prop) : Prop where
  congruent : Congruent R
  emit : ∀ {s e v}, Good s → Expr.eval callables s e = .ok v →
    R (escape v).toList (escape v).toList
  default : ∀ text : String, R (escapeText text).toList (escapeText text).toList
  passes : ∀ {s e v key name s'}, Good s → Expr.eval callables s e = .ok v →
    s' ∈ s.passes key name v → Good s'

/-- Whether a relation does not tell apart some texts from themselves. -/
abbrev Regards (R : List Char → List Char → Prop) : List String → Prop :=
  AllOf fun text => R text.toList text.toList

section Overrides

variable {R : List Char → List Char → Prop} {Good : Scopes → Prop}

/-- A default is written as it is. -/
theorem Comparable.simulates_default {callables : Callables} (hR : Comparable R callables Good)
    (default : Option String) :
    Simulates R (ε := CallFault) (.ok (default.toList.map escapeText))
      (.ok (default.toList.map escapeText)) := by
  cases default with
  | none => exact .ok hR.congruent.nil
  | some text => exact .ok (by simpa using hR.default text)

section Change

variable {callables : Callables} {old new : List Override} (hR : Comparable R callables Good)
  (hnone : ∀ name, overrideOf old name = none → overrideOf new name = none)
  (hsome : ∀ name body, overrideOf old name = some body → Regards R (Node.textsOfList body) ∧
    ∃ body', overrideOf new name = some body' ∧ ∀ active s x, Good s →
      Simulates R x (Node.renderList ⟨callables, new⟩ active s body) →
      Simulates R x (Node.renderList ⟨callables, new⟩ active s body'))
include hR hnone hsome

/-- Renderings under the old and the new overrides, in the same scopes. -/
theorem Comparable.lockstep :
    Lockstep ⟨callables, old⟩ ⟨callables, new⟩ (fun s s' => s = s' ∧ Good s)
      (fun text => R text.toList text.toList) (fun _ => True) (Simulates R) where
  nothing := .ok hR.congruent.nil
  text htext := .ok (by simpa using htext)
  default := hR.simulates_default
  emit := by
    rintro s _ e ⟨rfl, hs⟩ -
    exact .bind _ fun v hv => .ok (by simpa using hR.emit hs hv)
  append := .append hR.congruent
  branch := by
    rintro s _ e x x' y y' ⟨rfl, -⟩ - hx hy
    refine .bind _ fun v _ => ?_
    split
    · exact hx
    · exact hy
  loop := by
    rintro s _ e key name f f' ⟨rfl, hs⟩ - hf
    refine .bind _ fun v hv => .passes hR.congruent fun s' hs' => ?_
    exact hf s' s' ⟨rfl, hR.passes hs hv hs'⟩
  absent := hnone _
  override := by
    intro name body ho
    obtain ⟨hregards, body', ho', hbody'⟩ := hsome name body ho
    refine ⟨⟨hregards, fun _ _ => trivial⟩, body', ho', ?_⟩
    rintro active s _ x ⟨rfl, hs⟩ hx
    exact hbody' active s x hs hx

/-- **A change of overrides.** If whatever simulates the old body of an override simulates the new
one, then nodes write related texts under the old and the new overrides. -/
theorem Node.renderList_overrides (active : List String) (s : Scopes) (nodes : List Node)
    (hs : Good s) (hnodes : Regards R (Node.textsOfList nodes)) :
    Simulates R (Node.renderList ⟨callables, old⟩ active s nodes)
      (Node.renderList ⟨callables, new⟩ active s nodes) :=
  Node.renderList_lockstep (hR.lockstep hnone hsome) active nodes ⟨rfl, hs⟩
    ⟨hnodes, fun _ _ => trivial⟩

end Change

/-- Nodes write what is related to itself if their texts and those of the overrides are. -/
theorem Node.renderList_self {callables : Callables} {overrides : List Override}
    (hR : Comparable R callables Good)
    (hoverrides : ∀ name body, overrideOf overrides name = some body →
      Regards R (Node.textsOfList body))
    (active : List String) (s : Scopes) (nodes : List Node) (hs : Good s)
    (hnodes : Regards R (Node.textsOfList nodes)) :
    Simulates R (Node.renderList ⟨callables, overrides⟩ active s nodes)
      (Node.renderList ⟨callables, overrides⟩ active s nodes) :=
  Node.renderList_overrides hR (fun _ h => h)
    (fun name body h => ⟨hoverrides name body h, body, h, fun _ _ _ _ hx => hx⟩)
    active s nodes hs hnodes

end Overrides

end Hashmark
